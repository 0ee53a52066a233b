import Impulse.Proofs.BlockSteps

/-!
# What one token does

A token makes a sequence of the changes that `State.Step` lists, stops with a problem that can be reported, or
hands over to the importer. It hands over only where nothing is open, and the importer has the last word.
-/

namespace Impulse.Parse

/-- Whatever the importer is, the reading makes the same changes on its own, or it leaves the rest to the importer
in the state `s₁`, where nothing is open. -/
inductive Proceeds (unbounded : Prop) (settings : Settings) (s s₁ : State)
    (x : Importer → Parse Unit) : Prop
  | alone (same : ∀ importer importer', x importer settings s = x importer' settings s)
      (h : ∀ importer, Advances unbounded settings s (x importer))
  | imports (t : Token) (path : String) (bottom : s₁.blocks = [])
      (asks : ∀ importer : Importer, x importer settings s = importer t path settings s₁)

theorem Proceeds.unasked {x : Parse Unit} (h : Advances unbounded settings s x) :
    Proceeds unbounded settings s s₁ fun _ => x :=
  .alone (fun _ _ => rfl) fun _ => h

theorem Ensures.of_eq {x y : Parse α}
    (same : x settings s = y settings s₁) (notices : s₁.session.notices = s.session.notices)
    (h : Ensures unbounded settings s₁ y post) : Ensures unbounded settings s x post := by
  unfold Ensures at h ⊢
  rw [same, ← notices]
  exact h

theorem Proceeds.after (steps : State.Steps settings s s₁)
    (notices : s₁.session.notices = s.session.notices)
    (same : ∀ importer, x importer settings s = y importer settings s₁)
    (h : Proceeds unbounded settings s₁ s₂ y) : Proceeds unbounded settings s s₂ x := by
  cases h with
  | alone agree h =>
    refine .alone (fun i i' => ?_) fun importer => .of_eq (same importer) notices ?_
    · rw [same i, same i', agree i i']
    · exact (h importer).mono fun _ _ h' => steps.trans h'
  | imports t path bottom asks =>
    exact .imports t path bottom fun importer => (same importer).trans (asks importer)

theorem directive_proceeds (noSwitch : s.inSwitch = false) (unmarked : s.afterBranch = false) (t : Token)
    (toks : List Token) : Proceeds unbounded settings s s fun importer => directive importer t toks := by
  have named := Infer.expect_settled ((t :: toks).getLastD t) .ident
    (p := .expected "a macro name after '@'") trivial toks
  unfold directive Parse.expect
  cases hx : Infer.expect ((t :: toks).getLastD t) .ident (.expected "a macro name after '@'") toks with
  | error e =>
    rw [hx] at named
    exact .alone (fun _ _ => rfl) fun _ => ⟨.inl named, .refl _⟩
  | ok r =>
    simp only [ofExcept, pure_bind]
    split
    · exact .unasked (.fail trivial)
    · exact .unasked (.fail trivial)
    · exact .unasked (.fail trivial)
    · next d _ _ _ =>
      split
      · next arg args =>
        by_cases isText : arg.kind ≠ .string
        · simp only [if_pos isText]
          exact .unasked (.fail trivial)
        · simp only [if_neg isText]
          by_cases isImport : d = .importing
          · simp only [if_pos isImport]
            -- Only an import of one string, outside of all blocks, is left to the importer.
            by_cases deep : s.depth > 0
            · have refused : ∀ importer : Importer, (if s.depth > 0
                  then fail r.1 (.directive .importNotAtTop) else importer arg arg.value)
                  = fail r.1 (.directive .importNotAtTop) := fun importer => if_pos deep
              refine .alone (fun i i' => ?_) fun importer => .get ?_
              · exact congrFun (congrFun ((refused i).trans (refused i').symm) settings) s
              · rw [refused]
                exact .fail trivial
            · refine .imports arg arg.value ?_ fun importer => ?_
              · exact List.length_eq_zero_iff.mp (Nat.eq_zero_of_not_pos deep)
              · change (if s.depth > 0 then _ else importer arg arg.value) settings s = _
                rw [if_neg deep]
          · simp only [if_neg isImport]
            exact .unasked (.emit (.single (.write (.embed _ _) noSwitch unmarked)))
      · exact .unasked (.fail trivial)

theorem plainStatement_proceeds (hs : s.Complete) (noSwitch : s.inSwitch = false) (unmarked : s.afterBranch = false)
    (noRecord : s.record = none ∨ s.function ≠ none) (lexed : t.Lexed) (rest : List Token) :
    Proceeds unbounded settings s s fun importer => plainStatement importer t rest := by
  unfold plainStatement
  dsimp only
  split
  · exact directive_proceeds noSwitch unmarked t _
  · exact .unasked (returnStatement_advances hs noSwitch unmarked t _)
  · exact .unasked (jump_advances noSwitch unmarked t _)
  · exact .unasked (jump_advances noSwitch unmarked t _)
  · refine .unasked (.ite (fun _ => ?_) fun _ => .ite (fun _ => ?_) fun _ => ?_)
    · exact variableDeclaration_advances hs noSwitch unmarked noRecord false lexed _ _
    · exact variableDeclaration_advances hs noSwitch unmarked noRecord true lexed _ _
    · split
      · exact assignment_advances hs noSwitch unmarked _ _ _
      · exact effect_advances hs noSwitch unmarked t _
  · refine .unasked ?_
    split
    · exact assignment_advances hs noSwitch unmarked _ _ _
    · exact effect_advances hs noSwitch unmarked t _

/-- What is read where no field of a record is expected. In a switch no statement stands outside of the cases. -/
def plainPlace (s : State) (importer : Importer) (t : Token) (rest : List Token) : Parse Unit :=
  if s.inSwitch then fail t (.block .statementInSwitch) >>= fun _ : Unit => plainStatement importer t rest
  else plainStatement importer t rest

theorem statement_field (record : s.record = some r) (outside : s.function = none)
    (importer : Importer) (t : Token) (rest : List Token) :
    statement importer (t :: rest) settings s = recordField r t rest settings { s with afterBranch := false } := by
  cases s
  cases record
  cases outside
  rfl

theorem statement_plain (noField : s.record = none ∨ s.function ≠ none)
    (importer : Importer) (t : Token) (rest : List Token) :
    statement importer (t :: rest) settings s
      = plainPlace s importer t rest settings { s with afterBranch := false } := by
  cases s with
  | mk _ _ _ _ _ _ _ _ _ function record _ =>
    cases record with
    | none => rfl
    | some r =>
      cases function with
      | none => simp at noField
      | some f => rfl

theorem statement_proceeds (hs : s.Complete) (lexed : ∀ u ∈ toks, u.Lexed) :
    Proceeds unbounded settings s { s with afterBranch := false } fun importer =>
      statement importer toks := by
  have idle : State.Steps settings s { s with afterBranch := false } :=
    .single (.idle s s.session.notices s.buffer false fun _ => .inl)
  cases toks with
  | nil => exact .unasked (.change_bind rfl (.pure idle))
  | cons t rest =>
    have plain (noField : s.record = none ∨ s.function ≠ none) :
        Proceeds unbounded settings { s with afterBranch := false } { s with afterBranch := false }
          fun importer => plainPlace s importer t rest := by
      unfold plainPlace
      cases inside : s.inSwitch with
      | true => exact .alone (fun _ _ => rfl) fun _ => Ensures.fail_bind (by trivial)
      | false => exact plainStatement_proceeds hs.unmarked inside rfl noField (lexed t (.head _)) rest
    by_cases noField : s.record = none ∨ s.function ≠ none
    · exact .after idle rfl (fun importer => statement_plain noField importer t rest) (plain noField)
    · obtain ⟨isRecord, outside⟩ := not_or.mp noField
      obtain ⟨r, record⟩ := Option.ne_none_iff_exists'.mp isRecord
      have outside : s.function = none := Decidable.not_not.mp outside
      refine .after idle rfl (fun importer => statement_field record outside importer t rest) ?_
      exact .unasked (recordField_advances (s := { s with afterBranch := false })
        record outside t rest)

theorem namedHeader_advances (brace : Token) (lexed : ∀ u ∈ t :: rest, u.Lexed) :
    Advances unbounded settings s (namedHeader brace t rest) := by
  unfold namedHeader
  split
  · refine .ite (fun _ => .fail trivial) fun _ => .ite (fun _ => ?_) fun _ =>
      .ite (fun _ => ?_) fun _ => .ite (fun _ => ?_) fun _ => .fail trivial
    · exact structDefinition_advances brace (lexed t (.head _)) _
    · exact enumDefinition_advances brace (lexed t (.head _)) _
    · exact functionDefinition_advances brace lexed
  · exact Ensures.fail trivial

theorem headerOf_begins (hs : s.Complete) (arms : s.inSwitch = true → startsArm t = true) (brace : Token)
    (lexed : ∀ u ∈ t :: rest, u.Lexed) : Begins unbounded settings s (headerOf s.afterBranch brace t rest) := by
  have noSwitch : startsArm t = false → s.inSwitch = false := by
    intro noArm
    cases inside : s.inSwitch with
    | false => rfl
    | true =>
      rw [arms inside] at noArm
      cases noArm
  have whenever : BranchKind.when ≠ .otherwise := nofun
  have orWhenever : BranchKind.orWhen ≠ .otherwise := nofun
  unfold headerOf
  refine Ensures.ite (fun _ => .fail trivial) fun follows => ?_
  split
  · exact (functionDefinition_advances brace lexed).begins
  · next kind =>
    exact conditionalBranch_begins hs (noSwitch (by simp [startsArm, kind])) whenever (fun h => absurd rfl h) brace t rest
  · next kind =>
    exact conditionalBranch_begins hs (noSwitch (by simp [startsArm, kind])) orWhenever
      (fun _ => by simpa [kind] using follows) brace t rest
  · next kind =>
    exact otherwiseBranch_begins (noSwitch (by simp [startsArm, kind])) (by simpa [kind] using follows) brace t rest
  · next kind => exact switchBlock_begins hs (noSwitch (by simp [startsArm, kind])) brace t rest
  · exact armBlock_begins hs brace t rest
  · exact armBlock_begins hs brace t rest
  · exact armBlock_begins hs brace t rest
  · next kind => exact (loopBlock_advances hs.unmarked (noSwitch (by simp [startsArm, kind])) rfl brace t rest).begins
  · next kind => exact iterateBlock_begins hs (noSwitch (by simp [startsArm, kind])) brace t rest
  · next kind =>
    refine Advances.begins (deferBlock_advances ?_ rfl brace t rest)
    exact noSwitch (by simp [startsArm, kind])
  · exact (namedHeader_advances brace lexed).begins
  · exact Ensures.fail trivial

theorem header_advances (hs : s.Complete) (brace : Token)
    (lexed : ∀ u ∈ toks, u.Lexed) : Advances unbounded settings s (header brace toks) := by
  unfold header Advances
  refine .get (.change_bind rfl ?_)
  split
  · exact bareBlock_begins brace
  · next t rest =>
    dsimp only
    split
    · exact .fail_bind (by trivial)
    · refine .guard (by trivial) fun fits => headerOf_begins hs (fun inside => ?_) brace lexed
      rw [show s.inSwitch = true from inside] at fits
      simpa using fits

theorem Ensures.finishFile (h : s.buffer = [] → s.blocks = [] → post () s) :
    Ensures unbounded settings s Parse.finishFile post := by
  unfold Parse.finishFile
  refine .get ?_
  split
  · exact .fail trivial
  · next empty =>
    split
    · next bottom => exact .pure (h (List.getLast?_eq_none_iff.mp empty) bottom)
    · exact .fail trivial

theorem token_proceeds (hs : s.Complete) (nested : s.Nested) (buffered : ∀ u ∈ s.buffer, u.Lexed) (lexed : t.Lexed) :
    Proceeds unbounded settings s { s with buffer := [], afterBranch := false } fun importer =>
      token importer t := by
  have taken : State.Steps settings s { s with buffer := [] } :=
    .single (.idle s s.session.notices [] true (List.forall_mem_nil _))
  have complete : State.Complete { s with buffer := [] } := hs.congr rfl rfl rfl rfl rfl
  unfold token
  cases trivia : t.isTrivia with
  | true => exact .unasked (.pure (.refl s))
  | false =>
    simp only [Bool.false_eq_true, if_false]
    split
    · exact .after taken rfl (fun _ => rfl) (.unasked (header_advances complete t buffered))
    · by_cases empty : s.buffer = []
      · refine .after (y := fun _ => pure ()) taken rfl (fun importer => ?_) (.unasked ?_)
        · change (if !s.buffer.isEmpty then statement importer s.buffer else pure ()) settings _ = _
          rw [empty]
          rfl
        · exact Ensures.pure (.refl _)
      · refine .after taken rfl (fun importer => ?_) (statement_proceeds complete buffered)
        change (if !s.buffer.isEmpty then statement importer s.buffer else pure ()) settings _ = _
        rw [if_pos (by simpa using empty)]
    · refine .unasked (.get ?_)
      split
      · exact .fail trivial
      · exact closeBlock_advances nested t
    · exact .unasked (.finishFile fun _ _ => .refl s)
    · refine .unasked (.change rfl (.single ?_))
      refine .idle s s.session.notices (s.buffer ++ [t]) true fun u hu => ?_
      rcases List.mem_append.mp hu with old | new
      · exact .inl old
      · exact .inr (List.mem_singleton.mp new ▸ lexed)

theorem Proceeds.advances (h : Proceeds unbounded settings s s₁ x)
    (steps : State.Steps settings s s₁) (notices : s₁.session.notices = s.session.notices)
    (himport : ∀ t path, s₁.blocks = [] → Advances unbounded settings s₁ (importer t path)) :
    Advances unbounded settings s (x importer) := by
  cases h with
  | alone _ h => exact h importer
  | imports t path bottom asks =>
    refine .of_eq (asks importer) notices ?_
    exact (himport t path bottom).mono fun _ _ h' => steps.trans h'

end Impulse.Parse
