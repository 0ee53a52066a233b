import Impulse.Proofs.Expressions
import Impulse.Proofs.Formulas
import Impulse.Reading.Definition

/-!
# The values of constants

The value of a constant is known if it was read as a number. It is then written with digits, and a point or a sign among
them: the numbers of a source text are checked, computed numbers are written in base ten, and other constants hand on
their values. So a declaration keeps to this if all that is known does.
-/

namespace Impulse

namespace Text

/-- The text of a known value: nothing, a number, or something with a sign in front. -/
def IsValue (s : String) : Prop :=
  s = "" ∨ isNumber s = true ∨ s.toList.head? = some '-'

theorem isNumber_toString (n : Nat) : isNumber (toString n) = true := by
  have text : (toString n).toList = Nat.toDigits 10 n := String.toList_ofList
  have digits := fun c => isAsciiDigit_of_digitsValue? (digitsValue?_toDigits n) c
  cases written : Nat.toDigits 10 n with
  | nil => exact absurd written Nat.toDigits_ne_nil
  | cons c cs =>
    rw [written] at text digits
    exact isNumber_of_digits text digits

/-- The text of a known value, in more detail: nothing, a number, or a negative integer in base ten. -/
def IsNumeric (s : String) : Prop :=
  s = "" ∨ isNumber s = true ∨ ∃ z : Int, z < 0 ∧ s = toString z

theorem isNumeric_toString (z : Int) : IsNumeric (toString z) := by
  cases z with
  | ofNat n => exact .inr (.inl (isNumber_toString n))
  | negSucc n => exact .inr (.inr ⟨_, Int.negSucc_lt_zero n, rfl⟩)

end Text

open Text

/-- The variables that can be seen have values with such texts. -/
def View.Valued (v : View) : Prop :=
  ∀ path x, v.find? path = some x → IsNumeric x.value

theorem View.Spells.isNumeric {v : View} (values : v.Valued) (h : v.Spells text) : IsNumeric text := by
  cases h with
  | written h => exact .inr (.inl h)
  | computed z => exact isNumeric_toString z
  | constant found => exact values _ _ found

namespace Parse

theorem isNumeric_constantText {v : View} (complete : v.Complete) (values : v.Valued) (const : Bool) (wanted : want.Wanted)
    (read : Infer.Gives v (Infer.expression toks want) value) : IsNumeric (constantText const value) := by
  have built := (Infer.expression_builds complete toks wanted).of_gives read
  unfold constantText
  split
  · cases built with
    | numeral _ _ spelled => exact spelled.isNumeric values
    | constant _ found => exact values _ _ found
    | computed _ inner =>
      -- Arithmetic that is kept has a node inside, so it is no computed number.
      cases inner
  · exact .inl rfl

theorem isNumeric_of_mem_enumConstants (h : x ∈ enumConstants d) :
    IsNumeric x.value := by
  rcases List.mem_append.mp h with field | count
  · obtain ⟨f, -, rfl⟩ := List.mem_map.mp field
    exact .inl rfl
  · obtain rfl := List.mem_singleton.mp count
    exact .inr (.inl (isNumber_toString _))

end Parse

end Impulse
