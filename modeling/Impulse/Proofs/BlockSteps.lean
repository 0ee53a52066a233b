import Impulse.Proofs.DefinitionSteps
import Impulse.Proofs.Nesting

/-!
# What the headers and the ends of blocks do

The headers of branches, switches, loops, iterations and deferred blocks make the changes that `State.Step`
lists, or stop with a problem that can be reported. So does the end of a block, provided that the open blocks
fit to the rest of the state: then the record, the frame or the function that it ends is there.
-/

namespace Impulse.Parse

variable {s : State} (final first : Token)
  (toks : List Token)

theorem parenthesized_keeps (word : String) (toks : List Token) :
    Keeps unbounded settings s (parenthesized word toks) fun _ => True := by
  unfold parenthesized Keeps
  refine .finalOf fun final => ?_
  refine .settled (Infer.expect_settled final _ (by trivial) _) fun opened _ _ => ?_
  exact .settled (Infer.closing_settled _ _) fun parts _ _ => .pure ⟨rfl, trivial⟩

theorem inside_emitted (inside : s.function ≠ none) (n : Node) : (s.emitted n).function ≠ none :=
  fun outside => inside ((State.emitted_function s n).symm.trans outside)

/-- The header makes a sequence of changes, the first of which is that no branch can go on. -/
def Begins (unbounded : Prop) (settings : Settings) (s : State) (x : Parse Unit) : Prop :=
  Ensures unbounded settings { s with afterBranch := false } x fun _ s' => State.Steps settings s s'

theorem Advances.begins (h : Advances unbounded settings { s with afterBranch := false } x) :
    Begins unbounded settings s x := by
  have idle : State.Steps settings s { s with afterBranch := false } :=
    .single (.idle s s.session.notices s.buffer false fun _ => .inl)
  exact h.mono fun _ _ h' => idle.trans h'

theorem bareBlock_begins (brace : Token) : Begins unbounded settings s (bareBlock brace) := by
  unfold bareBlock Begins
  refine .get ?_
  dsimp only
  refine .guard (by trivial) fun inside => ?_
  refine .emit_bind (.openBlock (.single (.begin (.bare brace ?_) nofun)))
  simpa using inside

theorem captureName?_keeps : Keeps unbounded settings s (captureName? final toks) fun _ => True := by
  unfold captureName? Keeps
  split
  · exact .pure ⟨rfl, trivial⟩
  · split
    · exact .pure ⟨rfl, trivial⟩
    · refine .settled (Infer.expect_settled final _ (by trivial) _) fun name _ _ => ?_
      exact .settled (Infer.expect_settled final _ (by trivial) _) fun _ _ _ => .pure ⟨rfl, trivial⟩

theorem captureType_keeps (hs : s.Complete) (t : Token) (cond : List Node) :
    Keeps unbounded settings s (captureType t cond) fun ty => ty.isComplete = true := by
  unfold captureType Keeps
  split
  · split
    · refine .get ?_
      split
      · next v found =>
        exact .pure ⟨rfl, hs.context.resolve? (hs.scope _ (.head _)) found⟩
      · exact .fail trivial
    · exact .fail trivial
  · exact .fail trivial

theorem conditionalBranch_begins (hs : s.Complete) (noSwitch : s.inSwitch = false)
    (conditional : kind ≠ .otherwise) (follows : kind ≠ .when → s.afterBranch = true) (brace t : Token)
    (toks : List Token) : Begins unbounded settings s (conditionalBranch kind brace t toks) := by
  unfold conditionalBranch Begins
  refine .requireFunction fun inside => ?_
  refine .finalOf fun final => ?_
  refine (parenthesized_keeps _ toks).bind fun parts _ => ?_
  refine (captureName?_keeps final _).bind fun capture _ => ?_
  refine .condition (hs.unmarked.view settings) fun cond notices read => ?_
  have begin : ∀ captureTy, State.Steps settings s ((State.emitted
      { withNotices s notices with afterBranch := false }
      (.plain t (.branch kind cond ((capture.1.map (·.value)).getD "") captureTy))).opened
        { kind := .branch, token := brace, framed := true }) := fun captureTy =>
    .noticed (.single (.begin (.branch brace t kind _ captureTy inside noSwitch conditional read)
      fun other => follows (bne_iff_ne.mp other)))
  split
  · refine .settled (Infer.nothingMore_settled _ _) fun _ _ _ => ?_
    refine .emit_bind (.openBlock_bind (.pure ?_))
    exact begin .absent
  · next name hcapture =>
    refine .newName fun _ => ?_
    have complete : State.Complete { withNotices s notices with afterBranch := false } :=
      hs.congr rfl rfl rfl rfl rfl
    refine (captureType_keeps complete name cond).bind fun ty hty => ?_
    refine .settled (Infer.nothingMore_settled _ _) fun _ _ _ => ?_
    refine .emit_bind (.openBlock_bind (.declare fun notices' s' declared => ?_))
    refine (begin ty).trans (.noticed (.single (.declare hty declared ?_ rfl)))
    exact inside_emitted (s := { withNotices s notices with afterBranch := false }) inside _

theorem otherwiseBranch_begins (noSwitch : s.inSwitch = false) (follows : s.afterBranch = true) (brace t : Token)
    (toks : List Token) : Begins unbounded settings s (otherwiseBranch brace t toks) := by
  unfold otherwiseBranch Begins
  refine .requireFunction fun inside => ?_
  refine .settled (Infer.nothingMore_settled _ _) fun _ _ _ => ?_
  exact .emit_bind (.openBlock (.single (.begin (.otherwise brace t inside noSwitch) fun _ => follows)))

theorem switchBlock_begins (hs : s.Complete) (noSwitch : s.inSwitch = false) (brace t : Token)
    (toks : List Token) : Begins unbounded settings s (switchBlock brace t toks) := by
  unfold switchBlock Begins
  refine .requireFunction fun inside => ?_
  refine (parenthesized_keeps _ toks).bind fun parts _ => ?_
  refine .settled (Infer.nothingMore_settled _ _) fun _ _ _ => ?_
  refine .expression (hs.unmarked.view settings) .absent fun value notices read => ?_
  refine .emit_bind (.openBlock (.noticed (.single (.begin ?_ nofun))))
  exact .switch brace t inside noSwitch read

theorem armValues_ensures (hs : s.Complete) (hwant : want.Wanted) (parts : List (List Token)) :
    Ensures unbounded settings s (armValues want parts) fun values s' => ∃ notices, s' = withNotices s notices ∧
        (∀ n ∈ values, ∃ toks, Infer.Gives (s.view settings) (Infer.expression toks want) n) ∧
        ∀ n ∈ values, want.isAbsent = true ∨ want.accepts n = true ∨ (s.view settings).Lax := by
  induction parts generalizing s with
  | nil => exact .pure ⟨s.session.notices, rfl, by simp, by simp⟩
  | cons toks parts ih =>
    rw [armValues]
    refine .expression (hs.view settings) hwant fun n notices read => ?_
    have goesOn : ∀ notices, (want.isAbsent = true ∨ want.accepts n = true ∨ (s.view settings).Lax) →
        Ensures unbounded settings (withNotices s notices)
          (armValues want parts >>= fun ns => pure (n :: ns)) fun values s' =>
          ∃ notices, s' = withNotices s notices ∧
            (∀ n ∈ values, ∃ toks,
              Infer.Gives (s.view settings) (Infer.expression toks want) n) ∧
            ∀ n ∈ values, want.isAbsent = true ∨ want.accepts n = true ∨ (s.view settings).Lax := by
      intro notices fits
      have complete : (withNotices s notices).Complete := hs.congr rfl rfl rfl rfl rfl
      refine (ih complete).bind fun ns s' h => ?_
      obtain ⟨notices', rfl, readRest, fitsRest⟩ := h
      refine .pure ⟨notices', rfl, ?_, ?_⟩
      · intro m hm
        rcases List.mem_cons.mp hm with rfl | hm
        · exact ⟨toks, read⟩
        · exact readRest m hm
      · intro m hm
        rcases List.mem_cons.mp hm with rfl | hm
        · exact fits
        · exact fitsRest m hm
    dsimp only
    split
    · exact .infer (s := withNotices s notices) (Infer.Ensures.mismatch trivial)
        fun _ notices' lax _ => goesOn notices' (.inr (.inr lax))
    · next fits =>
      refine goesOn notices ?_
      cases habsent : want.isAbsent with
      | true => exact .inl rfl
      | false =>
        rw [habsent] at fits
        exact .inr (.inl (by simpa using fits))

theorem armBlock_begins (hs : s.Complete) (brace t : Token) (toks : List Token) :
    Begins unbounded settings s (armBlock brace t toks) := by
  unfold armBlock Begins
  refine .get ?_
  split
  · exact .fail trivial
  · next b rest blocks =>
    dsimp only
    refine .guard (by trivial) fun kind => ?_
    have kind : b.kind = .switch := by simpa using kind
    have wanted : b.value.Wanted :=
      .of_complete (hs.blocks b (by rw [blocks]; exact .head _) kind)
    have begin : ∀ notices values,
        (∀ n ∈ values, ∃ toks, Infer.Gives (s.view settings) (Infer.expression toks b.value) n) →
        (∀ n ∈ values, b.value.isAbsent = true ∨ b.value.accepts n = true ∨ (s.view settings).Lax) →
        State.Steps settings s ((State.emitted { withNotices s notices with afterBranch := false } (.plain t (.arm values
          (t.kind = .kwFallthrough) (t.kind = .kwDefault)))).opened
          { kind := .arm, token := brace, framed := true }) := fun notices values read fits =>
      .noticed (.single (.begin (.arm brace t _ _ (s := withNotices s notices) blocks kind read fits) nofun))
    split
    · split
      · have none : Keeps unbounded settings { s with afterBranch := false } (pure [] : Parse (List Node)) fun ns => ns = [] :=
          Ensures.pure ⟨rfl, rfl⟩
        refine none.bind fun values h => ?_
        subst h
        exact .emit_bind (.openBlock (begin s.session.notices [] (by simp) (by simp)))
      · exact .fail_bind (by trivial)
    · refine (parenthesized_keeps _ toks).bind fun parts _ => ?_
      refine .settled (Infer.nothingMore_settled _ _) fun _ _ _ => ?_
      refine .guard (by trivial) fun _ => ?_
      refine (armValues_ensures hs.unmarked wanted _).bind fun values s' h => ?_
      obtain ⟨notices, rfl, read, fits⟩ := h
      exact .emit_bind (.openBlock (begin notices values read fits))

theorem loopStep_keeps : Keeps unbounded settings s (loopStep toks) fun _ => True := by
  unfold loopStep Keeps
  split
  · exact .pure ⟨rfl, trivial⟩
  · dsimp only
    split
    · exact .pure ⟨rfl, trivial⟩
    · split
      · exact .pure ⟨rfl, trivial⟩
      · split
        · exact .pure ⟨rfl, trivial⟩
        · split
          · exact .pure ⟨rfl, trivial⟩
          · exact .fail trivial

theorem loopCounter_ensures :
    Ensures unbounded settings s (loopCounter first) fun r s' =>
      ∃ notices, (withNotices s notices).Counts r.1 r.2 s' := by
  unfold loopCounter
  refine .get (.read ?_)
  dsimp only
  split
  · next isNew =>
    have noPoint : Text.contains first.value '.' = false := by simp_all
    refine .newName fun _ => .declare_bind fun notices s' declared => ?_
    refine .get (.get ?_)
    have spelled : s'.context.spell s'.scope first.value = first.value := by
      simp [Context.spell, spelling, noPoint]
    rw [spelled]
    exact .pure ⟨notices, .introduced first declared noPoint⟩
  · refine .get (.get ?_)
    exact .pure ⟨s.session.notices, .known (.inr ⟨first.value, rfl⟩)⟩

theorem requireCounter_keeps (counter : String) :
    Keeps unbounded settings s (requireCounter first counter) fun _ => counter ≠ "" ∧
      ∃ x, s.context.resolvePath? s.scope counter = some x ∧ x.ty.isNumeric = true := by
  unfold requireCounter Keeps
  refine .get ?_
  dsimp only
  refine .ite (fun _ => .fail trivial) fun counts => .pure ⟨rfl, ?_⟩
  cases found : s.context.resolvePath? s.scope counter with
  | none => simp [found] at counts
  | some x => exact ⟨by simp_all, x, rfl, by simp_all⟩

theorem loopBlock_advances (hs : s.Complete) (noSwitch : s.inSwitch = false) (unmarked : s.afterBranch = false)
    (brace t : Token) (toks : List Token) : Advances unbounded settings s (loopBlock brace t toks) := by
  unfold loopBlock Advances
  refine .requireFunction fun inside => ?_
  refine (parenthesized_keeps _ toks).bind fun parts _ => ?_
  refine (loopStep_keeps _).bind fun step _ => ?_
  refine .settled (Infer.nothingMore_settled _ _) fun _ _ _ => ?_
  split
  · exact .fail trivial
  · next first more hinner =>
    refine .openBlock_bind ?_
    -- The condition is read where the counter is known.
    have goesOn : ∀ init counter notices s', (withNotices
          (s.opened { kind := .loop, token := brace, framed := true }) notices).Counts init counter s' →
        Ensures unbounded settings s' (do
          let cond ← infer (Infer.condition parts.1 parts.2.1)
          if step.1 ≠ .stay then requireCounter first counter
          emit (.plain t (.loop init counter cond step.1))) fun _ s' =>
          State.Steps settings s s' := by
      intro init counter notices s' counts
      have complete : (withNotices s notices).Complete := hs.congr rfl rfl rfl rfl rfl
      refine .condition ((complete.looped counts).view settings) fun cond notices' read => ?_
      have looped : (step.1 ≠ .stay → counter ≠ "" ∧
            ∃ x, s'.context.resolvePath? s'.scope counter = some x ∧ x.ty.isNumeric = true) →
          State.Steps settings s
            ((withNotices s' notices').emitted (.plain t (.loop init counter cond step.1))) := by
        intro counted
        rw [State.emitted_withNotices]
        refine .noticed (.step (.single (.loop (s := withNotices s notices) brace t parts.1 counter
          step.1 inside noSwitch counts read counted unmarked)) (.idle _ notices' _ true fun _ => .inl))
      dsimp only
      split
      · exact (requireCounter_keeps _ _).bind fun _ numeric => .emit (looped fun _ => numeric)
      · next stays => exact .emit (looped fun steps => absurd steps stays)
    dsimp only
    split
    · refine (loopCounter_ensures first).bind fun r s' h => ?_
      obtain ⟨notices, counts⟩ := h
      exact goesOn r.1 r.2 notices s' counts
    · exact goesOn .absent "" s.session.notices _ (.known (.inl rfl))

theorem iterationNames_keeps : Keeps unbounded settings s (iterationNames final toks) fun _ => True := by
  unfold iterationNames Keeps
  refine .settled (Infer.expect_settled final _ (by trivial) _) fun elem _ _ => ?_
  refine .newName fun _ => ?_
  split
  · split
    · exact .pure ⟨rfl, trivial⟩
    · refine .settled (Infer.expect_settled final _ (by trivial) _) fun index _ _ => ?_
      refine .newName fun _ => ?_
      dsimp only
      split
      · exact .fail trivial
      · exact .pure ⟨rfl, trivial⟩
  · exact .pure ⟨rfl, trivial⟩

theorem iterationElement_keeps (subject : Node) :
    Keeps unbounded settings s (iterationElement subject) fun ty => subject.ty.resolved.element? = some ty := by
  unfold iterationElement Keeps
  dsimp only
  split
  · next ty found =>
    refine .pure ⟨rfl, ?_⟩
    split at found
    · next elem length array =>
      rw [array]
      exact found
    · exact found
    · cases found
  · exact .fail trivial

theorem iterateBlock_begins (hs : s.Complete) (noSwitch : s.inSwitch = false) (brace t : Token)
    (toks : List Token) : Begins unbounded settings s (iterateBlock brace t toks) := by
  unfold iterateBlock Begins
  refine .requireFunction fun inside => ?_
  refine (parenthesized_keeps _ toks).bind fun parts _ => ?_
  refine .settled (Infer.nothingMore_settled _ _) fun _ _ _ => ?_
  refine .finalOf fun final => ?_
  refine (iterationNames_keeps final _).bind fun names _ => ?_
  refine .settled (Infer.expect_settled final _ (by trivial) _) fun word _ _ => ?_
  refine .guard (by trivial) fun _ => ?_
  refine .expression (hs.unmarked.view settings) .absent fun subject notices read => ?_
  refine (iterationElement_keeps subject).bind fun elemTy element => ?_
  refine .emit_bind (.openBlock_bind (.declare_bind fun notices₁ s₁ declared => ?_))
  have complete : elemTy.isComplete = true := by
    have built := hs.builds .absent read
    have subjectComplete := (built.completeArg (hs.view settings)).1
    exact Ty.isComplete_element? (Ty.isComplete_resolved subjectComplete) element
  have started : State.Steps settings s s₁ := by
    have begun := State.Step.begin (.iterate brace t names.1.value
      ((names.2.1.map (·.value)).getD "") (s := withNotices s notices) inside noSwitch read element) nofun
    refine .noticed (State.Steps.trans (.single begun) ?_)
    refine .noticed (.single (.declare complete declared ?_ rfl))
    exact inside_emitted (s := { withNotices s notices with afterBranch := false }) inside _
  split
  · exact .pure started
  · refine .declare fun notices₂ s₂ declared₂ => started.trans ?_
    refine .noticed (.single (.declare rfl declared₂ (declared.inside ?_) rfl))
    exact inside_emitted (s := { withNotices s notices with afterBranch := false }) inside _

theorem deferBlock_advances (noSwitch : s.inSwitch = false) (unmarked : s.afterBranch = false) (brace t : Token)
    (toks : List Token) : Advances unbounded settings s (deferBlock brace t toks) := by
  unfold deferBlock Advances
  refine .requireFunction fun inside => ?_
  refine .settled (Infer.nothingMore_settled _ _) fun _ _ _ => ?_
  refine .get ?_
  dsimp only
  refine .guard (by trivial) fun direct => ?_
  refine .openBlock_bind (.change rfl (.single ?_))
  exact .defer brace inside (by simpa using direct) noSwitch unmarked

theorem Ensures.popFrame (popped : s.scope.pop? = some scope)
    (h : post () { s with scope := scope }) : Ensures unbounded settings s Parse.popFrame post := by
  unfold Parse.popFrame
  refine .get ?_
  rw [popped]
  exact .change rfl h

theorem Ensures.popFrame_bind (popped : s.scope.pop? = some scope) (h : Ensures unbounded settings { s with scope := scope } (k ()) post) :
    Ensures unbounded settings s (Parse.popFrame >>= k) post := by
  have closed : Ensures unbounded settings s Parse.popFrame fun _ s' =>
      s' = { s with scope := scope } := .popFrame popped rfl
  exact closed.bind fun _ _ hs => hs ▸ h

/-- The state in which the end of the innermost block is read: the block is no longer open. -/
def shut (s : State) (rest : List Block) (afterBranch : Bool) : State :=
  { s with blocks := rest, afterBranch := afterBranch }

theorem emitted_shut (s : State) (rest : List Block) (afterBranch : Bool) (n : Node) :
    (shut s rest afterBranch).emitted n = shut (s.emitted n) rest afterBranch := by
  unfold State.emitted shut
  dsimp only
  split <;> rfl

theorem finishedFields_shut (s : State) (rest : List Block) (afterBranch : Bool) (d : StructDraft) :
    (shut s rest afterBranch).finishedFields d = shut (s.finishedFields d) rest afterBranch := by
  unfold State.finishedFields
  dsimp only
  rw [← emitted_shut, ← emitted_shut]
  rfl

theorem finishedEnum_shut (s : State) (rest : List Block) (afterBranch : Bool) (d : EnumDraft) :
    (shut s rest afterBranch).finishedEnum d = shut (s.finishedEnum d) rest afterBranch := by
  unfold State.finishedEnum
  dsimp only
  rw [← emitted_shut, ← emitted_shut, ← emitted_shut]
  rfl

variable (hs : s.Nested)
include hs

theorem closeStruct_advances (blocks : s.blocks = b :: rest) (kind : b.kind = .struct) :
    Ensures unbounded settings (shut s rest false) closeStruct fun _ s' => State.Steps settings s s' := by
  obtain ⟨-, outside, ⟨r, record, hkind⟩, -⟩ := hs.close_record blocks (.inl kind)
  cases r with
  | enum d =>
    rw [kind] at hkind
    cases hkind
  | struct d =>
    unfold closeStruct
    refine .get ?_
    rw [show (shut s rest false).record = some (.struct d) from record]
    dsimp only
    split
    · next openFields =>
      have finished : Ensures unbounded settings (shut s rest false) (finishFields d) fun _ s' =>
          s' = (shut s rest false).finishedFields d := .finishFields rfl
      refine finished.bind fun _ s' h => ?_
      subst h
      rw [finishedFields_shut]
      have complete : (s.finishedFields d).record = some (.struct { d with fieldsOpen := false }) := by
        simp [State.finishedFields]
      have same : (s.finishedFields d).blocks = b :: rest := by
        simpa [State.finishedFields] using blocks
      exact .change rfl (.step (.single (.fields record openFields outside)) (.closeStruct same kind complete rfl))
    · next complete =>
      exact .change rfl (.single (.closeStruct blocks kind record (by simpa using complete)))

theorem closeEnum_advances (blocks : s.blocks = b :: rest) (kind : b.kind = .enum) :
    Ensures unbounded settings (shut s rest false) closeEnum fun _ s' => State.Steps settings s s' := by
  obtain ⟨-, outside, ⟨r, record, hkind⟩, -⟩ := hs.close_record blocks (.inr kind)
  cases r with
  | struct d =>
    rw [kind] at hkind
    cases hkind
  | enum d =>
    unfold closeEnum
    refine .get ?_
    rw [show (shut s rest false).record = some (.enum d) from record]
    have finished : Ensures unbounded settings (shut s rest false) (finishEnum d) fun _ s' =>
        s' = (shut s rest false).finishedEnum d := by
      unfold finishEnum
      exact .change_bind rfl (.emit_bind (.emit_bind (.emit rfl)))
    refine finished.bind fun _ s' h => ?_
    subst h
    rw [finishedEnum_shut]
    exact .change rfl (.single (.closeEnum blocks kind record))

theorem closeDeferred_advances (blocks : s.blocks = b :: rest) (kind : b.kind = .deferred) :
    Ensures unbounded settings (shut s rest false) closeDeferred fun _ s' => State.Steps settings s s' := by
  have nesting := hs.nesting
  rw [blocks] at nesting
  obtain ⟨_, -, -, framed⟩ := nesting.close_deferred kind
  obtain ⟨scope, popped, -⟩ := hs.pop_frame blocks framed
  unfold closeDeferred
  refine .change_bind rfl ?_
  have closed : State.Step settings s _ := .closeDeferred blocks kind popped
  exact .popFrame (by exact popped) (.single closed)

theorem closeOther_advances (t : Token) (blocks : s.blocks = b :: rest)
    (kind : b.kind ≠ .struct ∧ b.kind ≠ .enum ∧ b.kind ≠ .deferred) :
    Ensures unbounded settings (shut s rest (b.kind = .branch)) (closeOther b t) fun _ s' =>
      State.Steps settings s s' := by
  have nesting := hs.nesting
  rw [blocks] at nesting
  obtain ⟨framed, -⟩ := nesting.close_other kind
  obtain ⟨scope, popped, -⟩ := hs.pop_frame blocks framed
  have closed : State.Step settings s (s.closed b rest t scope) :=
    .closeOther t blocks kind (by rw [if_pos framed]; exact popped)
  unfold State.closed at closed
  dsimp only at closed
  unfold closeOther
  refine .get ?_
  dsimp only
  refine .change_bind rfl (.emitAll_bind (.emit_bind ?_))
  rw [if_pos framed]
  refine .popFrame_bind (?_ : _ = some scope) ?_
  · simpa [shut] using popped
  · split
    · next isFunction =>
      rw [if_pos isFunction] at closed
      exact .change rfl (.single closed)
    · next notFunction =>
      rw [if_neg notFunction] at closed
      exact .pure (.single closed)

theorem closeBlock_advances (t : Token) : Advances unbounded settings s (closeBlock t) := by
  unfold closeBlock Advances
  refine .get ?_
  split
  · exact .fail trivial
  · next b rest blocks =>
    refine .change_bind rfl ?_
    -- Only a branch can be followed by another one.
    have notBranch : ∀ kind, b.kind = kind → kind ≠ .branch → decide (b.kind = .branch) = false :=
      fun kind h hne => decide_eq_false fun hb => hne (h.symm.trans hb)
    split
    · next kind =>
      rw [notBranch _ kind nofun]
      exact closeStruct_advances hs blocks kind
    · next kind =>
      rw [notBranch _ kind nofun]
      exact closeEnum_advances hs blocks kind
    · next kind =>
      rw [notBranch _ kind nofun]
      exact closeDeferred_advances hs blocks kind
    · next noStruct noEnum noDeferred =>
      exact closeOther_advances hs t blocks ⟨noStruct, noEnum, noDeferred⟩

end Impulse.Parse
