import Impulse.Proofs.KnownTypes

/-!
# What statements do

Every statement makes a sequence of the changes that `State.Step` lists, or stops with a problem that can be
reported. Imports are left out: a statement that asks for one is treated with the reading of files.
-/

namespace Impulse

namespace State.Steps

theorem noticed (h : Steps settings (Parse.withNotices s notices) s') : Steps settings s s' :=
  (single (.idle s notices s.buffer true fun _ => .inl)).trans h

end State.Steps

namespace Parse

/-- The reading makes a sequence of changes, or stops for a reason that is allowed. -/
def Advances (unbounded : Prop) (settings : Settings) (s : State) (x : Parse Unit) : Prop :=
  Ensures unbounded settings s x fun _ s' => State.Steps settings s s'

theorem Ensures.warn (h : c.Reportable)
    (hpost : ∀ notices, post () (withNotices s notices)) : Ensures unbounded settings s (Parse.warn t c) post :=
  ⟨hpost _, .single _ h⟩

theorem inferLength_ensures (t : Token) (ty : Ty) (value : Node) :
    Ensures unbounded settings s (inferLength t ty value) fun ty' s' => s' = s ∧ ty.Lengthened value ty' := by
  unfold inferLength
  split
  · split
    · next hopen => exact .pure ⟨rfl, .counted (by rw [hopen]) rfl⟩
    · split
      · next size known =>
        refine .ite (fun _ => .fail trivial) fun short =>
          .pure ⟨rfl, .same fun _ _ _ _ _ _ array list found => ?_⟩
        cases array
        cases list
        cases known.symm.trans found
        exact Int.not_lt.mp short
      · next unknown =>
        refine .pure ⟨rfl, .same fun _ _ _ _ _ _ array list found => ?_⟩
        cases array
        cases unknown.symm.trans found
  · next other => exact .pure ⟨rfl, .same fun _ _ _ _ _ _ array list _ => (other _ _ _ _ _ array list).elim⟩

theorem initialValue_ensures (hs : s.Complete) (t : Token) (name : String)
    (complete : ty.isComplete = true) (toks : List Token) :
    Ensures unbounded settings s (initialValue t name ty toks) fun r s' =>
      ∃ notices, s' = withNotices s notices ∧ (s.view settings).Initial ty r.1 r.2 := by
  unfold initialValue
  refine Ensures.expression (hs.view settings) (.of_complete complete) fun value notices read => ?_
  refine (inferLength_ensures t ty value).bind fun ty' s' h => ?_
  obtain ⟨rfl, length⟩ := h
  refine Ensures.check trivial fun notices' fits => ?_
  exact .pure ⟨notices', rfl, .value read length fits⟩

theorem declarationParts_ensures (t : Token) (const : Bool) (toks : List Token) :
    Ensures unbounded settings s (declarationParts t const toks) fun _ s' => s' = s := by
  unfold declarationParts
  split
  · exact .fail trivial
  · exact .pure rfl
  · split
    · exact .fail trivial
    · exact .pure rfl

theorem variableDeclaration_advances (hs : s.Complete) (noSwitch : s.inSwitch = false) (unmarked : s.afterBranch = false)
    (noRecord : s.record = none ∨ s.function ≠ none) (const : Bool) (lexed : t.Lexed)
    (sign : Token) (toks : List Token) :
    Advances unbounded settings s (variableDeclaration const t sign toks) := by
  unfold variableDeclaration Advances
  refine .newName fun kind => ?_
  dsimp only
  refine .guard (by trivial) fun noPoint => ?_
  have plain : PlainName t.value := lexed.plainName kind (by simpa using noPoint)
  refine (declarationParts_ensures t const toks).bind fun parts s' h => ?_
  subst h
  refine .guard (by trivial) fun _ => ?_
  refine .typeOf fun written complete typed => ?_
  refine .guard (by trivial) fun _ => ?_
  -- What follows is the same with and without a value.
  have goesOn : ∀ notices ty value, (s'.view settings).Initial written ty value →
      Advances unbounded settings (withNotices s' notices) (do
        let global := (← get).function.isNone
        declare t { name := t.value, ty := ty, const := const, value := constantText const value }
        emit (.declaration t t.value ty value const global false)) := by
    intro notices ty value initial
    refine .get ?_
    dsimp only
    refine .declare_bind fun notices' s₁ declared => ?_
    refine .emit ?_
    exact State.Steps.noticed (.single (.define t declared noSwitch noRecord typed initial plain unmarked rfl))
  split
  · exact goesOn s'.session.notices written .absent .none
  · next toks _ =>
    refine (initialValue_ensures hs t t.value complete toks).bind fun r s₁ h => ?_
    obtain ⟨notices, rfl, initial⟩ := h
    exact (goesOn notices r.1 r.2 initial).mono fun _ s₂ h => h.noticed

theorem assignment_advances (hs : s.Complete) (noSwitch : s.inSwitch = false) (unmarked : s.afterBranch = false)
    (eq : Token) (left right : List Token) : Advances unbounded settings s (assignment eq left right) := by
  unfold assignment Advances
  cases left with
  | nil => exact .fail trivial
  | cons t rest =>
    refine .requireFunction fun inside => ?_
    dsimp only
    refine .guard (by trivial) fun _ => ?_
    refine .expression (hs.view settings) .absent fun target notices readTarget => ?_
    refine .guard (by trivial) fun place => ?_
    refine .get ?_
    have built := hs.builds .absent readTarget
    have wanted : target.ty.resolved.Wanted :=
      .of_complete (Ty.isComplete_resolved (built.completeArg (hs.view settings)).1)
    -- Behind the test for constants, the value is read and checked.
    have goesOn : (∀ root x, target.rootName? = some root →
          s.context.resolve? s.scope root = some x → x.const = false) →
        Ensures unbounded settings (withNotices s notices) (do
          let value ← Parse.expression right target.ty.resolved
          if !target.ty.resolved.accepts value then
            mismatch (right.headD eq)
              (.assignment value.text value.ty target.text target.ty.resolved)
          emit (.assignment t target value)) fun _ s' => State.Steps settings s s' := by
      intro noConstant
      refine .expression (s := withNotices s notices) (hs.view settings) wanted
        fun value notices' readValue => ?_
      refine .check trivial fun notices'' fits => ?_
      refine .emit (State.Steps.noticed (.single (.write ?_ noSwitch unmarked)))
      exact .assign t inside readTarget (by simpa using place) noConstant readValue fits
    split
    · next noRoot =>
      refine goesOn ?_
      intro root x hroot
      rw [noRoot] at hroot
      cases hroot
    · next root hroot =>
      split
      · next x known =>
        refine .guard (by trivial) fun noConstant => goesOn ?_
        intro root' x' hroot' known'
        rw [hroot] at hroot'
        cases hroot'
        have : some x = some x' := known.symm.trans known'
        cases this
        simpa using noConstant
      · next unknown =>
        refine goesOn ?_
        intro root' x' hroot' known'
        rw [hroot] at hroot'
        cases hroot'
        have : none = some x' := unknown.symm.trans known'
        cases this

theorem effect_advances (hs : s.Complete) (noSwitch : s.inSwitch = false) (unmarked : s.afterBranch = false)
    (t : Token) (toks : List Token) : Advances unbounded settings s (effect t toks) := by
  unfold effect Advances
  refine .requireFunction fun inside => ?_
  refine .expression (hs.view settings) .absent fun n notices read => ?_
  split
  · refine .emit (State.Steps.noticed (.single (.write ?_ noSwitch unmarked)))
    exact .call inside read
  · refine .emit (State.Steps.noticed (.single (.write ?_ noSwitch unmarked)))
    exact .code inside read
  · exact .warn (by trivial) fun notices => .noticed (.noticed (.refl _))

theorem resultValue_ensures (hs : s.Complete) (hf : s.function = some f)
    (t : Token) (toks : List Token) :
    Ensures unbounded settings s (resultValue f t toks) fun value s' =>
      ∃ notices, s' = withNotices s notices ∧ (s.view settings).Results f value := by
  unfold resultValue
  split
  · refine .check trivial fun notices fits => ?_
    exact .pure ⟨notices, rfl, .nothing fits⟩
  · refine .expression (hs.view settings) (.of_complete (hs.function f hf)) fun value notices read => ?_
    dsimp only
    split
    · exact Ensures.infer (Infer.Ensures.mismatch trivial) fun _ notices' lax _ =>
        .pure ⟨notices', rfl, .value read (.inr lax)⟩
    · next notVoid =>
      refine .check trivial fun notices' fits => ?_
      refine .pure ⟨notices', rfl, .value read ?_⟩
      exact fits.imp_left fun accepts => ⟨by simpa using notVoid, accepts⟩

theorem returnStatement_advances (hs : s.Complete) (noSwitch : s.inSwitch = false)
    (unmarked : s.afterBranch = false) (t : Token) (toks : List Token) : Advances unbounded settings s (returnStatement t toks) := by
  unfold returnStatement Advances
  refine .get ?_
  split
  · exact .fail trivial
  · next f hf =>
    dsimp only
    refine .guard (by trivial) fun direct => ?_
    refine (resultValue_ensures hs hf t toks).bind fun value s' h => ?_
    obtain ⟨notices, rfl, results⟩ := h
    have direct : s.deferral.isRecording = false := by simpa using direct
    refine .read ?_
    split
    · next on =>
      refine .get (.emitAll_bind (.emit ?_))
      exact .noticed (.single (.result (s := withNotices s notices) t hf direct noSwitch results
        (.inr ⟨on, rfl⟩) unmarked))
    · next off =>
      refine .emit ?_
      exact .noticed (.single (.result (s := withNotices s notices) t hf direct noSwitch results
        (.inl ⟨by simpa using off, rfl⟩) unmarked))

theorem jump_advances (noSwitch : s.inSwitch = false) (unmarked : s.afterBranch = false) (t : Token)
    (toks : List Token) :
    Advances unbounded settings s (jump t toks) := by
  unfold jump Advances
  refine .requireFunction fun inside => ?_
  refine .settled (Infer.nothingMore_settled _ toks) fun _ _ _ => ?_
  refine .get ?_
  dsimp only
  refine .guard (by trivial) fun target => ?_
  have target : State.canJump s.blocks = true := by simpa using target
  refine .emit (.single (.write ?_ noSwitch unmarked))
  split
  · exact .leave t inside target
  · exact .again t inside target

theorem enumField_advances (record : s.record = some (.enum d)) (outside : s.function = none)
    (t : Token) (rest : List Token) : Advances unbounded settings s (enumField d t rest) := by
  unfold enumField Advances
  dsimp only
  refine .guard (by trivial) fun _ => ?_
  refine .newName fun _ => ?_
  refine .guard (by trivial) fun fresh => ?_
  exact .change rfl (.single (.enumField record outside (by simpa using fresh)))

theorem structField_advances (record : s.record = some (.struct d)) (outside : s.function = none)
    (t : Token) (rest : List Token) : Advances unbounded settings s (structField d t rest) := by
  unfold structField Advances
  dsimp only
  refine .guard (by trivial) fun openFields => ?_
  split
  · refine .guard (by trivial) fun _ => ?_
    refine .newName fun _ => ?_
    refine .guard (by trivial) fun _ => ?_
    refine .guard (by trivial) fun _ => ?_
    refine .typeOf fun ty complete typed => ?_
    refine .guard (by trivial) fun _ => ?_
    exact .change rfl (.single (.structField record outside (by simpa using openFields) typed))
  · exact .fail trivial

theorem recordField_advances (record : s.record = some r) (outside : s.function = none)
    (t : Token) (rest : List Token) : Advances unbounded settings s (recordField r t rest) := by
  unfold recordField
  split
  · exact enumField_advances record outside t rest
  · exact structField_advances record outside t rest

end Parse

end Impulse
