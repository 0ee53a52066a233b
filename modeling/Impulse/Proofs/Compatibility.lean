import Impulse.Proofs.Addresses

/-!
# Which types go together

Structural equality is equality, and equal types go together. Going together has a direction in one place only: a pointer
takes an array, but no array takes a pointer. Arrays go together if their elements do, so the pointer and the array may
lie below array levels that both sides have. Everywhere else the two sides can be exchanged.
-/

namespace Impulse.Ty

theorem same_iff_eq {a b : Ty} (complete : a.isComplete = true) : a.same b = true ↔ a = b := by
  constructor
  · exact eq_of_same
  · rintro rfl
    exact same_self complete

theorem same_comm (a b : Ty) : a.same b = b.same a := by
  have turn : ∀ {s t : Ty}, s.same t = true → t.same s = true := by
    intro s t h
    obtain rfl := eq_of_same h
    exact h
  exact Bool.eq_iff_iff.mpr ⟨turn, turn⟩

/-- Below the array levels that `a` and `b` share, `a` is a pointer to `target` and `b` is an array of `elem`. At each
level a view counts as what it shows. -/
inductive TakesArray (target elem : Ty) : Ty → Ty → Prop
  | here {a b : Ty} {length : String} (left : a.resolved = .pointer target) (right : b.resolved = .array elem length) :
      TakesArray target elem a b
  | level {a b x y : Ty} {m n : String} (left : a.resolved = .array x m) (right : b.resolved = .array y n)
      (inner : TakesArray target elem x y) : TakesArray target elem a b

section Levels

variable {a b x y p : Ty}

theorem compatible_arrays (left : a.resolved = .array x m) (right : b.resolved = .array y n) :
    a.compatible b = x.compatible y := by
  rw [compatible]
  generalize a.resolved = s at left ⊢
  generalize b.resolved = t at right ⊢
  subst left right
  rfl

theorem compatible_pointer_array (left : a.resolved = .pointer p) (right : b.resolved = .array y n) :
    a.compatible b = p.pointee.pointeesCompatible y.pointee := by
  rw [compatible]
  generalize a.resolved = s at left ⊢
  generalize b.resolved = t at right ⊢
  subst left right
  rfl

theorem compatible_array_pointer (left : a.resolved = .array x m) (right : b.resolved = .pointer p) :
    a.compatible b = false := by
  rw [compatible]
  generalize a.resolved = s at left ⊢
  generalize b.resolved = t at right ⊢
  subst left right
  rfl

end Levels

theorem TakesArray.compatible_eq (h : TakesArray target elem a b) :
    a.compatible b = target.pointee.pointeesCompatible elem.pointee ∧ b.compatible a = false := by
  induction h with
  | here left right => exact ⟨compatible_pointer_array left right, compatible_array_pointer right left⟩
  | level left right _ ih =>
    rw [compatible_arrays left right, compatible_arrays right left]
    exact ih

theorem pointeesCompatible_comm (a b : Ty) : a.pointeesCompatible b = b.pointeesCompatible a := by
  have equal := same_comm a b
  unfold pointeesCompatible
  rw [Bool.or_comm b.isVoid, Bool.or_comm b.isPlaceholder]
  congr 2
  cases a with
  | named x as =>
    cases b with
    | named y bs => simp only [BEq.comm (a := x), BEq.comm (a := as.length)]
    | absent | prim | pointer | array | placeholder | view => rfl
  | absent | prim | pointer | array | placeholder | view =>
    cases b with
    | named => rfl
    | absent | prim | pointer | array | placeholder | view => exact equal

theorem compatible_comm (a b : Ty) (noLeft : ∀ target elem, ¬TakesArray target elem a b)
    (noRight : ∀ target elem, ¬TakesArray target elem b a) : a.compatible b = b.compatible a := by
  have size := sizeOf_resolved_le a
  rw [compatible, compatible]
  generalize left : a.resolved = x at size ⊢
  generalize right : b.resolved = y
  have equal := same_comm x y
  rw [Bool.or_comm y.isAny, Bool.or_comm y.isPlaceholder, Bool.and_comm y.isNumeric]
  congr 3
  cases x with
  | pointer p =>
    cases y with
    | pointer q => exact pointeesCompatible_comm _ _
    | array e n => exact absurd (.here left right) (noLeft p e)
    | absent | prim | named | placeholder | view => rfl
  | array e m =>
    cases y with
    | pointer q => exact absurd (.here right left) (noRight q e)
    | array e' n =>
      exact compatible_comm e e' (fun target elem h => noLeft target elem (.level left right h))
        fun target elem h => noRight target elem (.level right left h)
    | absent | prim | named | placeholder | view => rfl
  | named name args =>
    cases y with
    | named name' args' => simp only [BEq.comm (a := name), BEq.comm (a := args.length)]
    | absent | prim | pointer | array | placeholder | view => rfl
  | absent | prim | placeholder | view =>
    cases y with
    | pointer | array | named => rfl
    | absent | prim | placeholder | view => exact equal
termination_by sizeOf a
decreasing_by
  simp only [array.sizeOf_spec] at size
  omega

/-- On types without missing parts, structural equality is equality, and equal types go together, so every type goes with
itself. A pointer takes an array below shared array levels if what they lead to goes together, and then the array does
not take the pointer. In all other cases the sides can be exchanged. -/
theorem compatible_laws {a b : Ty} (left : a.isComplete = true) (right : b.isComplete = true) :
    (a.same b = true ↔ a = b) ∧ (a.same b = true → a.compatible b = true) ∧
    a.compatible a = true ∧ b.compatible b = true ∧ (∀ target elem, TakesArray target elem a b →
      a.compatible b = target.pointee.pointeesCompatible elem.pointee ∧ b.compatible a = false) ∧
    (∀ target elem, TakesArray target elem b a →
      b.compatible a = target.pointee.pointeesCompatible elem.pointee ∧ a.compatible b = false) ∧
    ((∀ target elem, ¬TakesArray target elem a b ∧ ¬TakesArray target elem b a) → a.compatible b = b.compatible a) := by
  refine ⟨same_iff_eq left, ?_, compatible_self left, compatible_self right, fun _ _ h => h.compatible_eq,
    fun _ _ h => h.compatible_eq, ?_⟩
  · intro same
    rw [← eq_of_same same]
    exact compatible_self left
  · intro neither
    exact compatible_comm a b (fun target elem => (neither target elem).1) fun target elem => (neither target elem).2

def pointerPair : Ty :=
  .array (.pointer .int) "2"

def rowPair : Ty :=
  .view (.array (.array (.array .int "3") "2") "4") "i"

/-- An array of pointers takes an array of arrays that a view shows, and not the other way round. -/
theorem compatible_laws_pointerPair :
    pointerPair.isComplete = true ∧ rowPair.isComplete = true ∧ pointerPair.compatible rowPair = true ∧
    rowPair.compatible pointerPair = false ∧ pointerPair.compatible pointerPair = true ∧
    rowPair.compatible rowPair = true := by
  have left : pointerPair.isComplete = true := by decide
  have right : rowPair.isComplete = true := by decide
  have takes : TakesArray .int .int pointerPair rowPair := .level rfl rfl (.here rfl rfl)
  obtain ⟨-, -, selfLeft, selfRight, forward, -⟩ := compatible_laws left right
  obtain ⟨fits, misfits⟩ := forward _ _ takes
  exact ⟨left, right, fits.trans (by decide), misfits, selfLeft, selfRight⟩

end Impulse.Ty
