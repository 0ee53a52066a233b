import Impulse.Proofs.Definitions
import Impulse.Proofs.TypeRoundTrip

/-!
# The lengths of arrays

The length of an array is written as a number, or stands for the value of a constant. A number can have a point, and the
value of a constant can be negative; nothing else can be the length of an array but the name of a constant whose value is
not known.
-/

namespace Impulse

open Text

variable {settings : Settings} {s : State}

namespace State

section

variable {P : Variable → Prop}
  (new : ∀ {s : State} {x}, s.Complete → (∀ y, s.Knows y → P y) → s.Introduces settings x → P x)
include new

theorem Steps.forall_knows (h : Steps settings s s') (complete : s.Complete) (hs : ∀ x, s.Knows x → P x) :
    s'.Complete ∧ ∀ x, s'.Knows x → P x := by
  refine Steps.invariant (P := fun s => s.Complete ∧ ∀ x, s.Knows x → P x) ?_ ?_ ?_ h ⟨complete, hs⟩
  · intro s s' ⟨complete, hs⟩ h
    exact ⟨complete.step h, fun x known => (h.knows known).elim (hs x) (new complete hs)⟩
  · intro s t source last ⟨complete, hs⟩ _
    exact ⟨complete.child t source last, fun x known => hs x known.of_child⟩
  · intro s t source last c merged ⟨complete, hs⟩ _ _ ⟨inner, hc⟩ _ taken
    exact ⟨complete.absorbed inner taken, fun x known => (known.of_absorbed taken).elim (hs x) (hc x)⟩

end

end State

/-- What holds of all variables that can be introduced while it holds of those that are known. -/
theorem Moment.forall_knows {P : Variable → Prop}
    (new : ∀ {s : State} {x}, s.Complete → (∀ y, s.Knows y → P y) → s.Introduces settings x → P x)
    (h : Moment settings library path text fuel s toks) : ∀ x, s.Knows x → P x := by
  refine (invariant (P := fun s => s.Complete ∧ ∀ x, s.Knows x → P x) ?_ ?_ ?_ h).2
  · exact fun last => ⟨.start .., fun x known => (State.not_knows_start library path text last x known).elim⟩
  · exact fun _ ⟨complete, hs⟩ steps => steps.forall_knows new complete hs
  · exact fun ⟨complete, hs⟩ _ => ⟨complete.child _ _ _, fun x known => hs x known.of_child⟩

theorem Context.Field.value {c : Context} (h : c.Field const base ty y) :
    y.value = "" := by
  induction h with
  | direct => rfl
  | deeper _ _ _ ih => exact ih

theorem State.knows_of_resolve? (h : s.context.resolve? s.scope name = some x) : s.Knows x := by
  unfold Context.resolve? at h
  cases found : s.scope.find? name with
  | none =>
    rw [found] at h
    exact .global h
  | some y =>
    rw [found] at h
    cases h
    exact .inFrame (.head _) (List.mem_of_find?_eq_some found)

theorem State.Introduces.isNumeric (complete : s.Complete) (values : ∀ y, s.Knows y → IsNumeric y.value)
    (h : s.Introduces settings x) : IsNumeric x.value := by
  have introduced {x y : Variable} (own : IsNumeric x.value) (mem : y ∈ s.context.introduced x) : IsNumeric y.value := by
    rcases List.mem_cons.mp mem with rfl | field
    · exact own
    · exact .inl (Context.field_of_mem_fieldsOf field).value
  cases h with
  | declared _ unknown mem => exact introduced (.inl unknown) mem
  | defined typed initial valued mem =>
    refine introduced ?_ mem
    rw [valued]
    cases initial with
    | none => exact .inl (by generalize Variable.const _ = const; cases const <;> rfl)
    | value read =>
      have written := (TypeExpr.ofTokens_settled (s.view settings) false _).of_ok typed
      have seen : (s.view settings).Valued := fun path x found => values x (knows_of_resolve? found)
      exact Parse.isNumeric_constantText (complete.view settings) seen _ (.of_complete written) read
  | constant mem => exact Parse.isNumeric_of_mem_enumConstants mem

namespace TypeExpr

/-- What an array length is: nothing, a number, or what an integer constant stands for. -/
inductive IsLength (v : View) : String → Prop
  | none : IsLength v ""
  | number {length : String} (h : isNumber length = true) : IsLength v length
  | constant {name : String} {x : Variable} (visible : v.context.resolve? v.scope name = some x)
      (const : x.const = true) (integer : x.ty.isInteger = true) : IsLength v (if x.value = "" then name else x.value)

theorem isLength_of_arrayLength (h : arrayLength v t = .ok length) :
    IsLength v length := by
  unfold arrayLength at h
  dsimp only at h
  split at h
  · next written =>
    cases h
    rcases Bool.or_eq_true_iff.mp written with empty | number
    · rw [of_decide_eq_true empty]
      exact .none
    · exact .number number
  · split at h
    · cases h
    · next visible =>
      split at h
      · cases h
      · next constant =>
        cases h
        simp only [Bool.or_eq_true, Bool.not_eq_true', not_or, Bool.not_eq_false] at constant
        exact .constant visible constant.1 constant.2

theorem Formed.isLength (h : Formed v P whole ty) :
    ∀ length ∈ ty.lengths, IsLength v length := by
  induction h with
  | keyword _ known =>
    obtain ⟨p, rfl⟩ | ⟨-, rfl⟩ := Ty.ofKeyword?_cases known <;> exact List.forall_mem_nil _
  | self =>
    rw [Ty.lengths, Ty.allLengths_eq, List.flatMap_map]
    simp [Ty.lengths]
  | struct _ _ _ _ ih =>
    rw [Ty.lengths, Ty.allLengths_eq]
    exact List.forall_mem_flatMap.mpr ih
  | enum | placeholder => exact List.forall_mem_nil _
  | pointer levels _ ih =>
    rw [Ty.lengths_pointerTo]
    exact ih
  | array levels _ sized ih =>
    rw [Ty.lengths, Ty.lengths_pointerTo]
    exact List.forall_mem_cons.mpr ⟨isLength_of_arrayLength sized, ih⟩

end TypeExpr

/-- At every moment of reading a program, the length of every array in a type that is accepted is empty, a number, the
negative value of an integer constant that is visible, or the name of such a constant if its value is not known. A number
consists of digits and points. -/
theorem ofTokens_lengths {library : Library} {path text : String} {fuel : Nat} {toks : List Token}
    (moment : Moment settings library path text fuel s toks) (header : Bool) {type : List Token} {ty : Ty}
    (accepted : TypeExpr.ofTokens (s.view settings) header type = .ok ty) :
    ∀ length ∈ ty.lengths, length = "" ∨
      (isNumber length = true ∧ ∀ c ∈ length.toList, isAsciiDigit c = true ∨ c = '.') ∨
      ∃ name x, s.context.resolve? s.scope name = some x ∧ x.const = true ∧ x.ty.isInteger = true ∧
        (x.value = length ∧ (∃ z : Int, z < 0 ∧ length = toString z) ∨ x.value = "" ∧ length = name) := by
  have formed := (TypeExpr.ofTokens_formed (s.view settings) header (P := fun _ => True) fun _ _ _ => trivial).of_ok accepted
  have values := moment.forall_knows (P := fun x => IsNumeric x.value) State.Introduces.isNumeric
  intro length mem
  have number {length : String} (h : isNumber length = true) := And.intro h (mem_isNumber h)
  cases formed.isLength length mem with
  | none => exact .inl rfl
  | number h => exact .inr (.inl (number h))
  | @constant name x visible const integer =>
    by_cases unknown : x.value = ""
    · rw [if_pos unknown]
      exact .inr (.inr ⟨name, x, visible, const, integer, .inr ⟨unknown, rfl⟩⟩)
    · rw [if_neg unknown]
      rcases (values x (State.knows_of_resolve? visible)).resolve_left unknown with written | negative
      · exact .inr (.inl (number written))
      · exact .inr (.inr ⟨name, x, visible, const, integer, .inl ⟨rfl, negative⟩⟩)

/-- A constant with a negative value, and one whose value is not known. -/
def lengthConstants : String :=
  "P :: struct($T, $U) \x7b x: $T; \x7d N :: int = [2 - 5]; f :: (a: int) \x7b K :: int = a; \x7d"

theorem ofTokens_lengths_constants :
    ∃ fuel s toks type ty, Moment Settings.plain (.memory []) "main.imp" lengthConstants fuel s toks ∧
      TypeExpr.ofTokens (s.view Settings.plain) false type = .ok ty ∧ ty.lengths = ["1.5", "-3", "K"] ∧
      ∀ length ∈ ty.lengths, length = "" ∨
        (isNumber length = true ∧ ∀ c ∈ length.toList, isAsciiDigit c = true ∨ c = '.') ∨
        ∃ name x, s.context.resolve? s.scope name = some x ∧ x.const = true ∧ x.ty.isInteger = true ∧
          (x.value = length ∧ (∃ z : Int, z < 0 ∧ length = toString z) ∨ x.value = "" ∧ length = name) := by
  let type := (tokenize false 0 "P(int[N], u8[K])[1.5]").tokens.dropLast
  -- The first 37 tokens end behind the declaration of the second constant.
  have run : ((stateBefore? Settings.plain (.memory []) "main.imp" lengthConstants 37).map fun s =>
      (TypeExpr.ofTokens (s.view Settings.plain) false type).toOption.map Ty.lengths)
        = some (some ["1.5", "-3", "K"]) := by decide +kernel
  obtain ⟨s, before, accepted⟩ := Option.map_eq_some_iff.mp run
  obtain ⟨toks, moment⟩ := Moment.of_stateBefore? (by decide) before
  cases read : TypeExpr.ofTokens (s.view Settings.plain) false type with
  | error e =>
    rw [read] at accepted
    cases accepted
  | ok ty =>
    rw [read] at accepted
    exact ⟨_, s, toks, type, ty, moment, read, Option.some.inj accepted, ofTokens_lengths moment false read⟩

/-- Numbers with a point are lengths. -/
theorem ofTokens_fractionalLength :
    (compile Settings.plain (.memory []) "main.imp" "a: int[1.5];").stop = none ∧
    ((compile Settings.plain (.memory []) "main.imp" "a: int[1.5];").context.globals.get? "a").map (·.ty.lengths)
      = some ["1.5"] := by
  decide +kernel

end Impulse
