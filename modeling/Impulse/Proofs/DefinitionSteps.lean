import Impulse.Proofs.StatementSteps

/-!
# What the headers of definitions do

The headers of functions, structs and enums make the changes that `State.Step` lists, or stop with a problem
that can be reported. Parameters and results have complete types. A method completes the fields of its struct
before anything else.
-/

namespace Impulse.Parse

open List

variable (final : Token) (toks : List Token)
  (opened brace : Token)

def Keeps (unbounded : Prop) (settings : Settings) (s : State) (x : Parse α) (mid : α → Prop) : Prop :=
  Ensures unbounded settings s x fun a s' => s' = s ∧ mid a

theorem Keeps.bind
    (h : Keeps unbounded settings s x mid) (hk : ∀ a, mid a → Ensures unbounded settings s (k a) post) :
    Ensures unbounded settings s (x >>= k) post := by
  refine Ensures.bind h fun a s' ha => ?_
  obtain ⟨rfl, ha⟩ := ha
  exact hk a ha

theorem attributes_keeps (final : Token) (inlined shared : Bool) (toks : List Token) :
    Keeps unbounded settings s (attributes final inlined shared toks) fun r => r.2.2 <:+ toks := by
  unfold Keeps
  match toks with
  | [] =>
    rw [attributes]
    exact .pure ⟨rfl, suffix_refl _⟩
  | [t] =>
    rw [attributes]
    split
    · exact .fail trivial
    · exact .pure ⟨rfl, suffix_refl _⟩
  | t :: name :: rest =>
    have behind : ∀ {toks : List Token}, toks <:+ rest → toks <:+ t :: name :: rest :=
      fun h => (h.trans (suffix_cons name rest)).trans (suffix_cons t _)
    rw [attributes]
    split
    · exact .pure ⟨rfl, suffix_refl _⟩
    · split
      · exact .fail trivial
      · split
        · exact .fail trivial
        · exact (attributes_keeps final true shared rest).mono fun _ _ h => h.imp_right behind
        · exact (attributes_keeps final inlined true rest).mono fun _ _ h => h.imp_right behind
        · exact .fail trivial

theorem typeParameter_keeps :
    Keeps unbounded settings s (typeParameter final toks) fun p => p.ty.isComplete = true := by
  unfold typeParameter Keeps
  refine .settled (Infer.expect_settled final _ (by trivial) _) fun name _ _ => ?_
  refine .settled (Infer.expect_settled final _ (by trivial) _) fun colon _ _ => ?_
  refine .settled (Infer.expect_settled final _ (by trivial) _) fun kind _ _ => ?_
  dsimp only
  split
  · exact .fail trivial
  · exact .pure ⟨rfl, rfl⟩

theorem valueParameter_keeps :
    Keeps unbounded settings s (valueParameter final toks) fun p => p.ty.isComplete = true := by
  unfold valueParameter Keeps
  refine .settled (Infer.expect_settled final _ (by trivial) _) fun t _ _ => ?_
  refine .newName fun _ => ?_
  refine .settled (Infer.expect_settled final _ (by trivial) _) fun colon _ _ => ?_
  refine .typeOf fun ty complete _ => ?_
  split
  · exact .fail trivial
  · exact .pure ⟨rfl, complete⟩

theorem parameter_keeps (toks : List Token) :
    Keeps unbounded settings s (parameter opened toks) fun p => p.ty.isComplete = true := by
  unfold parameter
  split
  · exact Ensures.fail trivial
  · dsimp only
    split
    · exact typeParameter_keeps _ _
    · exact valueParameter_keeps _ _

theorem parameters_keeps (taken : List String) (parts : List (List Token)) :
    Keeps unbounded settings s (parameters opened taken parts) fun params =>
      ∀ e ∈ params, e.2.ty.isComplete = true := by
  unfold Keeps
  induction parts generalizing taken with
  | nil => exact .pure ⟨rfl, by simp⟩
  | cons toks parts ih =>
    rw [parameters]
    refine (parameter_keeps opened toks).bind fun p complete => ?_
    dsimp only
    split
    · exact .fail trivial
    · refine Keeps.bind (ih (p.name :: taken)) fun rest hrest => ?_
      exact .pure ⟨rfl, by simpa using ⟨complete, fun t q h => hrest (t, q) h⟩⟩

theorem resultType_keeps : Keeps unbounded settings s (resultType toks) fun r => r.1.isComplete = true := by
  unfold resultType Keeps
  split
  · exact .pure ⟨rfl, rfl⟩
  · split
    · exact .typeOf fun ty complete _ => .pure ⟨rfl, complete⟩
    · exact .fail trivial

theorem isComplete_selfParameter (d : StructDraft) : (selfParameter d).ty.isComplete = true := by
  have all : Ty.allComplete (d.generics.map .placeholder) = true := by
    rw [Ty.allComplete_eq_all, all_map]
    exact all_eq_true.mpr fun _ _ => rfl
  exact all

theorem Ensures.finishFields
    (h : post () (s.finishedFields d)) : Ensures unbounded settings s (Parse.finishFields d) post :=
  .change_bind rfl (.emit_bind (.emit h))

/-- Where a function stands: at the top level, or in a struct whose fields are complete. -/
def MethodPlace (s : State) : Option StructDraft → Prop
  | none => s.record = none ∧ s.blocks = []
  | some d => ∃ d', s.record = some (.struct d') ∧ d'.fieldsOpen = false ∧ d'.name = d.name

theorem methodOf?_ensures (outside : s.function = none) (t : Token) :
    Ensures unbounded settings s (methodOf? t) fun struct s' =>
      State.Steps settings s s' ∧ s'.function = none ∧ MethodPlace s' struct := by
  unfold methodOf?
  refine .get ?_
  split
  · exact .fail trivial
  · next d record =>
    dsimp only
    split
    · next openFields =>
      have finished : Ensures unbounded settings s (Parse.finishFields d) fun _ s' =>
          s' = s.finishedFields d := .finishFields rfl
      refine finished.bind fun _ s' h => ?_
      subst h
      refine .pure ⟨.single (.fields record openFields outside), ?_, ?_⟩
      · simpa [State.finishedFields] using outside
      · exact ⟨{ d with fieldsOpen := false }, by simp [State.finishedFields], rfl, rfl⟩
    · next complete =>
      exact .pure ⟨.refl s, outside, d, record, by simpa using complete, rfl⟩
  · next noRecord =>
    split
    · exact .fail trivial
    · next bottom =>
      refine .pure ⟨.refl s, outside, noRecord, ?_⟩
      exact length_eq_zero_iff.mp (Nat.eq_zero_of_not_pos bottom)

theorem declareParameters_advances (params : List (Token × Param)) (complete : ∀ e ∈ params, e.2.ty.isComplete = true)
    (inside : s.function ≠ none) : Advances unbounded settings s (declareParameters params) := by
  unfold Advances
  induction params generalizing s with
  | nil => exact .pure (.refl s)
  | cons e params ih =>
    obtain ⟨t, p⟩ := e
    rw [declareParameters]
    refine .declare_bind fun notices s' declared => ?_
    refine (ih (fun e he => complete e (.tail _ he)) (declared.inside inside)).mono fun _ s'' h => ?_
    refine (State.Steps.noticed (.single (.declare ?_ declared inside rfl))).trans h
    dsimp only
    split
    · rfl
    · exact complete (t, p) (.head _)

theorem functionDefinition_advances {header : List Token} (lexed : ∀ u ∈ header, u.Lexed) :
    Advances unbounded settings s (functionDefinition brace header) := by
  unfold functionDefinition Advances
  refine .finalOf fun final => ?_
  refine (attributes_keeps final false false header).bind fun attrs suffix => ?_
  refine .settled (Infer.expect_settled final _ (by trivial) _) fun name taken _ => ?_
  refine .newName fun kind => ?_
  refine .settled (Infer.expect_settled final _ (by trivial) _) fun sign _ _ => ?_
  refine .settled (Infer.expect_settled final _ (by trivial) _) fun opened _ _ => ?_
  refine .settled (Infer.closing_settled _ _) fun parts _ _ => ?_
  refine .get ?_
  dsimp only
  refine .guard (by trivial) fun outside => ?_
  refine .guard (by trivial) fun noPoint => ?_
  have outside : s.function = none := by simpa using outside
  have plain : PlainName name.1.value := by
    have mem : name.1 ∈ attrs.2.2 := taken.1 ▸ mem_cons_self
    exact (lexed name.1 (suffix.subset mem)).plainName kind (by simpa using noPoint)
  refine (methodOf?_ensures outside name.1).bind fun struct s₁ h => ?_
  obtain ⟨finished, outside₁, place⟩ := h
  refine (parameters_keeps _ _ _).bind fun written hwritten => ?_
  refine (resultType_keeps _).bind fun ret hret => ?_
  refine .get ?_
  split
  · exact .fail trivial
  · next fresh =>
    refine .change_bind rfl (.emit_bind (.openBlock_bind (.change_bind rfl ?_)))
    have complete : ∀ e ∈ (struct.map fun d => (name.1, selfParameter d)).toList ++ written,
        e.2.ty.isComplete = true := by
      intro e he
      rcases mem_append.mp he with self | own
      · cases struct with
        | none => cases self
        | some d =>
          obtain rfl := mem_singleton.mp self
          exact isComplete_selfParameter d
      · exact hwritten e own
    refine (declareParameters_advances _ complete (Option.some_ne_none _)).mono fun _ s₂ h => ?_
    refine (finished.trans (.single ?_)).trans h
    refine .function name.1 brace _ outside₁ ?_ fresh ⟨hret, ?_⟩ ?_
    · cases struct with
      | none => exact .inl ⟨place.1, place.2, rfl⟩
      | some d =>
        obtain ⟨d', record, closed, same⟩ := place
        exact .inr ⟨d', record, closed, same.symm⟩
    · intro p hp
      obtain ⟨e, he, rfl⟩ := mem_map.mp hp
      exact complete e he
    · cases struct with
      | none => exact ⟨fun _ => plain, fun d record => nomatch place.1.symm.trans record⟩
      | some d =>
        obtain ⟨d', record, -, same⟩ := place
        refine ⟨fun noRecord => (nomatch record.symm.trans noRecord), fun d'' record' => ?_⟩
        cases record.symm.trans record'
        exact ⟨name.1.value, plain, by rw [same]; rfl⟩

theorem structPlaceholders_keeps (final : Token) (toks : List Token) :
    Keeps unbounded settings s (structPlaceholders final toks) fun _ => True := by
  unfold Keeps
  match toks with
  | [] =>
    rw [structPlaceholders]
    exact .pure ⟨rfl, trivial⟩
  | [t] =>
    rw [structPlaceholders]
    split
    · exact structPlaceholders_keeps final []
    · split
      · exact .fail trivial
      · exact .fail trivial
  | t :: name :: rest =>
    rw [structPlaceholders]
    split
    · exact structPlaceholders_keeps final (name :: rest)
    · split
      · exact .fail trivial
      · dsimp only
        split
        · exact .fail trivial
        · refine (structPlaceholders_keeps final rest).bind fun names _ => ?_
          exact .pure ⟨rfl, trivial⟩

theorem structGenerics_keeps : Keeps unbounded settings s (structGenerics toks) fun _ => True := by
  unfold structGenerics Keeps
  split
  · exact .pure ⟨rfl, trivial⟩
  · split
    · exact .fail trivial
    · refine .settled (Infer.closing_settled _ _) fun parts _ _ => ?_
      refine .finalOf fun final => ?_
      refine (structPlaceholders_keeps final parts.1).bind fun names _ => ?_
      dsimp only
      refine .guard (by trivial) fun _ => ?_
      exact .settled (Infer.nothingMore_settled _ _) fun _ _ _ => .pure ⟨rfl, trivial⟩

theorem requireFresh_keeps (t : Token) (name : String) :
    Keeps unbounded settings s (requireFresh t name) fun _ => s.context.definedIn? name = none := by
  unfold requireFresh Keeps
  refine .get ?_
  split
  · exact .fail trivial
  · next fresh => exact .pure ⟨rfl, fresh⟩

theorem structDefinition_advances (lexed : t.Lexed) (toks : List Token) :
    Advances unbounded settings s (structDefinition brace t toks) := by
  unfold structDefinition Advances
  refine .newName fun kind => .get ?_
  dsimp only
  refine .guard (by trivial) fun outside => ?_
  refine .guard (by trivial) fun noRecord => ?_
  refine .guard (by trivial) fun noPoint => ?_
  refine (requireFresh_keeps t t.value).bind fun _ fresh => ?_
  refine (structGenerics_keeps toks).bind fun generics _ => ?_
  refine .change_bind rfl (.emit_bind (.openBlock (.single ?_)))
  exact .struct t brace generics (by simpa using outside) (by simpa using noRecord) fresh
    (lexed.plainName kind (by simpa using noPoint))

theorem enumDefinition_advances (lexed : t.Lexed) (toks : List Token) :
    Advances unbounded settings s (enumDefinition brace t toks) := by
  unfold enumDefinition Advances
  refine .newName fun kind => .get ?_
  dsimp only
  refine .guard (by trivial) fun outside => ?_
  refine .guard (by trivial) fun noRecord => ?_
  refine .guard (by trivial) fun noPoint => ?_
  refine .settled (Infer.nothingMore_settled _ toks) fun _ _ _ => ?_
  refine (requireFresh_keeps t t.value).bind fun _ fresh => ?_
  refine .change_bind rfl (.emit_bind (.openBlock (.single ?_)))
  exact .enum t brace (by simpa using outside) (by simpa using noRecord) fresh
    (lexed.plainName kind (by simpa using noPoint))

end Impulse.Parse
