import Impulse.Proofs.FileSteps
import Impulse.Proofs.TypeRoundTrip

/-!
# Types inside of methods

Two things set the body of a method apart from the top level, where types are concerned: the struct of the method is known
by its name alone, and variables of the method may hide global ones. Types that use neither the name of a generic struct in
its own methods nor a name that is hidden mean in every method what they mean at the top level.
-/

namespace Impulse

open List

theorem ok_of_bind {x : Except Stop α} {f : α → Except Stop β} (h : x.bind f = .ok b) : ∃ a, x = .ok a ∧ f a = .ok b := by
  cases x with
  | error e => cases h
  | ok a => exact ⟨a, rfl, h⟩

namespace TypeExpr

/-- The token is no sign of a placeholder, it does not name a generic struct whose body is open, and the variable that it
names in the first view is the one that it names in the second view. -/
structure Kept (v w : View) (t : Token) : Prop where
  noPlaceholder : t.kind ≠ .dollar
  foreign : ∀ generics, w.self? = some (t.value, generics) → t.kind = .ident → generics = []
  visible : ∀ name, name = t.value ∨ name = Text.trim t.value → ∀ x,
    v.context.resolve? v.scope name = some x → w.context.resolve? w.scope name = some x

/-- Arguments that are read in the first view are read in the second one, and there are some. -/
def ArgumentsKept (v w : View) (args args' : Token → List Token → Except Stop (List Ty)) : Prop :=
  ∀ opened inner tys, (∀ t ∈ inner, Kept v w t) → args opened inner = .ok tys → args' opened inner = .ok tys ∧ tys ≠ []

section

variable {v w : View}

theorem withLength_kept (kept : ∀ t ∈ toks, Kept v w t) (read : withLength v ty toks = .ok r) :
    withLength w ty toks = .ok r ∧ r.2 <:+ toks := by
  cases toks with
  | nil =>
    cases read
    exact ⟨rfl, suffix_refl _⟩
  | cons t ts =>
    simp only [withLength, List.head?_cons, Option.elim_some, tail_cons] at read ⊢
    split at read
    · next number =>
      obtain ⟨length, sized, read⟩ := ok_of_bind read
      cases read
      have same : arrayLength w t = .ok length := by
        unfold arrayLength at sized ⊢
        dsimp only at sized ⊢
        split at sized
        · next isNumber => rwa [if_pos isNumber]
        · next isName =>
          rw [if_neg isName]
          split at sized
          · cases sized
          · next x found => rwa [(kept t (.head _)).visible _ (.inr rfl) x found]
      rw [if_pos number, same]
      exact ⟨rfl, suffix_cons _ _⟩
    · next other =>
      cases read
      exact ⟨if_neg other, suffix_refl _⟩

/-- The same arguments are read, and where there are none, nothing is taken. -/
theorem structArguments_kept (hargs : ArgumentsKept v w args args') (kept : ∀ t ∈ toks, Kept v w t)
    (read : structArguments args toks = .ok r) :
    structArguments args' toks = .ok r ∧ r.2 <:+ toks ∧ (r.1 = [] → r.2 = toks) := by
  cases toks with
  | nil =>
    cases read
    exact ⟨rfl, suffix_refl _, fun _ => rfl⟩
  | cons t ts =>
    rw [structArguments] at read ⊢
    split at read
    · next opens =>
      obtain ⟨⟨inner, rest⟩, closed, read⟩ := ok_of_bind read
      obtain ⟨tys, given, read⟩ := ok_of_bind read
      cases read
      obtain ⟨u, -, parts⟩ := Token.untilClose_eq ((Infer.closing_settled t ts).of_ok closed)
      obtain ⟨same, some⟩ := hargs t inner tys (fun u mem => kept u (.tail _ (parts ▸ mem_append_left _ mem))) given
      refine ⟨?_, ⟨t :: (inner ++ [u]), by simp [parts]⟩, fun none => absurd none some⟩
      rw [if_pos opens, closed]
      simp only [Bind.bind, Except.bind, same]
      rfl
    · next other =>
      cases read
      exact ⟨if_neg other, suffix_refl _, fun _ => rfl⟩

theorem many_kept {one one' : List Token → Except Stop (Ty × List Token)}
    (hone : ∀ ts r, ts <:+ toks → one ts = .ok r → one' ts = .ok r ∧ r.2 <:+ ts) (read : many one toks = .ok tys) :
    many one' toks = .ok tys := by
  fun_induction many one toks generalizing tys with
  | case1 =>
    rw [many]
    exact read
  | case2 t ts comma ih =>
    rw [many, if_pos comma]
    exact ih (fun us r behind => hone us r (behind.trans (suffix_cons _ _))) read
  | case5 t ts kind ty rest given short tys' others ih =>
    cases read
    obtain ⟨same, taken⟩ := hone _ _ (suffix_refl _) given
    exact many_cons kind same short (ih (fun us r behind => hone us r (behind.trans taken)) others)
  | case3 | case4 | case6 => cases read

variable (context : w.context = v.context) (outside : v.self? = none)
  (registered : ∀ name generics, w.self? = some (name, generics) →
    ∃ d, v.context.structs.get? name = some d ∧ d.generics = generics)

include context outside registered

theorem named_kept (hargs : ArgumentsKept v w args args') (ident : t.kind = .ident) (first : Kept v w t)
    (kept : ∀ t ∈ toks, Kept v w t) (read : named v args t toks = .ok r) :
    named w args' t toks = .ok r ∧ r.2 <:+ toks := by
  cases known : v.context.structs.get? t.value with
  | none =>
    have other : w.self?.filter (·.1 == t.value) = none := by
      rw [Option.filter_eq_none_iff]
      rintro ⟨name, generics⟩ self same
      obtain rfl : name = t.value := beq_iff_eq.mp same
      obtain ⟨d, found, -⟩ := registered _ _ self
      cases known.symm.trans found
    simp only [named, outside, known, Option.filter_none] at read
    simp only [named, context, known, other]
    cases keyword : Ty.ofKeyword? t.value with
    | some ty =>
      simp only [keyword] at read ⊢
      cases read
      exact ⟨rfl, suffix_refl _⟩
    | none =>
      simp only [keyword] at read ⊢
      split at read
      · next enum =>
        cases read
        exact ⟨if_pos enum, suffix_refl _⟩
      · next noEnum =>
        split at read
        · next x found =>
          split at read
          · next holdsType =>
            cases read
            rw [if_neg noEnum, ← context, first.visible _ (.inl rfl) x found]
            exact ⟨if_pos holdsType, suffix_refl _⟩
          · cases read
        · cases read
  | some d =>
    rw [named_struct outside known] at read
    obtain ⟨⟨tys, rest⟩, given, read⟩ := ok_of_bind read
    obtain ⟨given', taken, whole⟩ := structArguments_kept hargs kept given
    dsimp only at read
    split at read
    · cases read
    · next count =>
      cases read
      refine ⟨?_, taken⟩
      cases self : w.self?.filter (·.1 == t.value) with
      | none =>
        cases keyword : Ty.ofKeyword? t.value <;>
          simp only [named, context, known, self, keyword, given', Bind.bind, Except.bind, if_neg count]
      | some own =>
        -- The struct of the method has no placeholders, so it had no arguments.
        obtain ⟨name, generics⟩ := own
        obtain ⟨isSelf, same⟩ := Option.filter_eq_some_iff.mp self
        obtain rfl : name = t.value := beq_iff_eq.mp same
        obtain rfl := first.foreign generics isSelf ident
        obtain ⟨d', found, noGenerics⟩ := registered _ _ isSelf
        obtain rfl := Option.some.inj (known.symm.trans found)
        obtain rfl : tys = [] := by simpa [noGenerics] using count
        obtain rfl := whole rfl
        cases keyword : Ty.ofKeyword? t.value <;> simp only [named, context, known, self, keyword] <;> rfl

theorem one_kept (hargs : ArgumentsKept v w args args') (final final' : Token) (kept : ∀ t ∈ toks, Kept v w t)
    (read : one v header args final toks = .ok r) : one w header args' final' toks = .ok r ∧ r.2 <:+ toks := by
  rw [one_eq] at read ⊢
  have skipped := (Token.Takes.skip .caret toks (by decide)).suffix
  generalize (toks.takeWhile _).length = levels at skipped read ⊢
  obtain ⟨⟨ty, rest⟩, given, sized⟩ := ok_of_bind read
  cases base : toks.drop levels with
  | nil =>
    rw [base] at given
    cases given
  | cons t ts =>
    rw [base] at skipped given
    obtain ⟨first, others⟩ := forall_mem_cons.mp fun t mem => kept t (skipped.subset mem)
    simp only [baseAt, List.head?_cons, Option.elim_some, tail_cons, if_neg first.noPlaceholder] at given ⊢
    split at given
    · next ident =>
      obtain ⟨same, taken⟩ := named_kept context outside registered hargs ident first others given
      obtain ⟨whole, left⟩ := withLength_kept (fun t mem => others t (taken.subset mem)) sized
      rw [if_pos ident, same]
      exact ⟨whole, left.trans (taken.trans ((suffix_cons _ _).trans skipped))⟩
    · cases given

theorem arguments_kept : ArgumentsKept v w (arguments v header) (arguments w header) := by
  intro opened inner tys kept read
  induction size : inner.length using Nat.strong_induction_on generalizing opened inner tys with
  | _ n ih =>
    subst size
    have below : ArgumentsKept v w (argumentsBelow v header inner.length) (argumentsBelow w header inner.length) := by
      intro inside deeper tys kept read
      unfold argumentsBelow at read ⊢
      split at read
      · next short =>
        rw [if_pos short]
        exact ih _ short inside deeper tys kept read rfl
      · cases read
    rw [arguments_eq] at read ⊢
    obtain ⟨tys', given, read⟩ := ok_of_bind read
    rw [many_kept (fun ts r behind => one_kept context outside registered below _ (inner.getLastD opened)
      fun t mem => kept t (behind.subset mem)) given]
    dsimp only [Except.bind]
    split at read
    · cases read
    · next some =>
      cases read
      exact ⟨if_neg some, fun none => some (isEmpty_iff.mpr none)⟩

theorem ofTokens_kept (kept : ∀ t ∈ toks, Kept v w t) (read : ofTokens v header toks = .ok ty) :
    ofTokens w header toks = .ok ty := by
  unfold ofTokens at read ⊢
  split at read
  · cases read
  · next some =>
    obtain ⟨r, given, read⟩ := ok_of_bind read
    have hargs : ArgumentsKept v w (arguments v header) (arguments w header) :=
      arguments_kept context outside registered
    rw [if_neg some, TypeExpr.read, (one_kept context outside registered hargs _ _ kept given).1]
    exact read

end

end TypeExpr

/-- Types without placeholders mean in the body of a method what they mean at the top level, unless they name the struct of
the method and this is generic, or they name a global variable that is hidden there. -/
theorem ofTokens_inMethod {settings : Settings} {outer inner : State} {draft : StructDraft} {d : StructDef}
    {toks : List Token} {ty : Ty} (top : outer.record = none ∧ outer.scope = .empty)
    (same : inner.context = outer.context) (body : inner.record = some (.struct draft))
    (registered : outer.context.structs.get? draft.name = some d) (generics : d.generics = draft.generics)
    (noPlaceholder : ∀ t ∈ toks, t.kind ≠ .dollar)
    (foreign : d.generics = [] ∨ ∀ t ∈ toks, t.kind = .ident → t.value ≠ draft.name)
    (visible : ∀ t ∈ toks, ∀ name, name = t.value ∨ name = Text.trim t.value →
      (inner.scope.find? name).isSome → outer.context.globals.get? name = none)
    (read : TypeExpr.ofTokens (outer.view settings) false toks = .ok ty) :
    TypeExpr.ofTokens (inner.view settings) false toks = .ok ty ∧ ty.same ty = true := by
  obtain ⟨noRecord, bottom⟩ := top
  have outside : (outer.view settings).self? = none := by simp [State.view, noRecord]
  have self : (inner.view settings).self? = some (draft.name, draft.generics) := by simp [State.view, body, Record.self?]
  refine ⟨TypeExpr.ofTokens_kept same outside ?_ (fun t mem => ⟨noPlaceholder t mem, ?_, ?_⟩) read, ?_⟩
  · intro name generics' own
    obtain ⟨rfl, rfl⟩ : draft.name = name ∧ draft.generics = generics' := by simpa [self] using own
    exact ⟨d, registered, generics⟩
  · intro generics' own ident
    obtain ⟨named, rfl⟩ : draft.name = t.value ∧ draft.generics = generics' := by simpa [self] using own
    rcases foreign with none | other
    · exact generics ▸ none
    · exact absurd named.symm (other t mem ident)
  · intro name spelled x found
    have global : outer.context.globals.get? name = some x := by
      simpa [State.view, Context.resolve?, bottom, Scope.empty, Scope.find?, Frame.find?] using found
    cases hidden : inner.scope.find? name with
    | some y => cases global.symm.trans (visible t mem name spelled (by rw [hidden]; rfl))
    | none => simp [State.view, Context.resolve?, hidden, same, global]
  · exact Ty.same_self ((TypeExpr.ofTokens_settled _ false toks).of_ok read)

/-- The body of a method, with a parameter that hides a global constant. -/
def inBox : State where
  session := { library := .memory [] }
  context := { TypeExpr.headerView.context with
    structs := ⟨[⟨"pair", { name := "pair", generics := ["A", "B"] }, "main.imp"⟩, ⟨"box", { name := "box" }, "main.imp"⟩]⟩ }
  scope := { top := { kind := .function, visible := [{ name := "M", ty := .int }] } }
  record := some (.struct { name := "box", token := default, generics := [] })

theorem ofTokens_inMethod_box :
    let toks := (tokenize false 0 "^pair(box, ^T)[N]").tokens.dropLast
    let outer := { inBox with record := none, scope := .empty }
    ∃ ty, TypeExpr.ofTokens (outer.view Settings.plain) false toks = .ok ty ∧ ty.text = "^pair(box ^$T)[4]" ∧
      TypeExpr.ofTokens (inBox.view Settings.plain) false toks = .ok ty ∧ ty.same ty = true := by
  intro toks outer
  have shown : ((TypeExpr.ofTokens (outer.view Settings.plain) false toks).toOption.map (·.text)) =
      some "^pair(box ^$T)[4]" := by
    decide +kernel
  have others : (toks.all fun t => t.kind != .dollar && (inBox.scope.find? t.value).isNone &&
      (inBox.scope.find? (Text.trim t.value)).isNone) = true := by
    decide +kernel
  simp only [all_eq_true, Bool.and_eq_true, bne_iff_ne, Option.isNone_iff_eq_none] at others
  clear_value toks
  cases read : TypeExpr.ofTokens (outer.view Settings.plain) false toks with
  | error e =>
    rw [read] at shown
    cases shown
  | ok ty =>
    rw [read] at shown
    have registered : outer.context.structs.get? "box" = some { name := "box" } := rfl
    refine ⟨ty, rfl, Option.some.inj shown, @ofTokens_inMethod _ outer inBox _ _ toks ty ⟨rfl, rfl⟩ rfl rfl registered rfl
      (fun t mem => (others t mem).1.1) (.inl rfl) ?_ read⟩
    rintro t mem name (rfl | rfl) hidden
    · simp [(others t mem).1.2] at hidden
    · simp [(others t mem).2] at hidden

/-- In its own methods a generic struct takes no arguments, and a parameter hides a global variable that holds a type. -/
theorem exists_type_outside_methods :
    let accepted := fun text => (compile Settings.plain (.memory []) "main.imp" text).stop.isNone
    (accepted "B :: struct ($T) \x7b v: $T; m :: () \x7b \x7d \x7d b: B(int);" = true ∧
      accepted "B :: struct ($T) \x7b v: $T; m :: () \x7b b: B(int); \x7d \x7d" = false) ∧
    accepted "X: typeid; B :: struct \x7b m :: (X: int) \x7b \x7d \x7d y: X;" = true ∧
      accepted "X: typeid; B :: struct \x7b m :: (X: int) \x7b y: X; \x7d \x7d" = false := by
  decide +kernel

end Impulse
