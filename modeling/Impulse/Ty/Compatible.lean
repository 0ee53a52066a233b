import Impulse.Ty

/-!
# Compatible types

When a value of one type may stand where another is expected. `any` and placeholders go with every
type, numbers go with numbers, and a pointer accepts an array. Behind pointers `void` goes with
everything. Generic arguments are not compared, only counted.
-/

namespace Impulse.Ty

/-- An element type is no larger than the type it is an element of. -/
theorem sizeOf_element?_le {t e : Ty} (h : t.element? = some e) : sizeOf e ≤ sizeOf t := by
  fun_induction element? t with
  | case1 elem length => simp_all; omega
  | case2 elem => simp_all
  | case3 =>
    obtain rfl := Option.some.inj h
    simp [char]
  | case4 => simp at h
  | case5 name arg hname => simp_all; omega
  | case6 => simp at h
  | case7 base index ih => have := ih h; simp; omega
  | case8 => simp at h

theorem sizeOf_resolved_le (t : Ty) : sizeOf t.resolved ≤ sizeOf t := by
  unfold resolved
  split
  · next base index =>
    cases h : base.element? with
    | none => simp
    | some e =>
      have := sizeOf_element?_le h
      simp; omega
  · exact Nat.le_refl _

def pointeesCompatible (a b : Ty) : Bool :=
  if a.isVoid || b.isVoid then true
  else if a.isPlaceholder || b.isPlaceholder then true
  else match a, b with
    | named x as, named y bs => x == y && as.length == bs.length
    | named _ _, _ => false
    | _, _ => a.same b

/-- Whether a value of type `b` may stand where `a` is expected. -/
def compatible (a b : Ty) : Bool :=
  if a.resolved.isAny || b.resolved.isAny then true
  else if a.resolved.isPlaceholder || b.resolved.isPlaceholder then true
  else if a.resolved.isNumeric && b.resolved.isNumeric then true
  else match _h : a.resolved, b.resolved with
    | pointer x, pointer y => pointeesCompatible x.pointee y.pointee
    | pointer x, array y _ => pointeesCompatible x.pointee y.pointee
    | pointer _, _ => false
    | array x _, array y _ => compatible x y
    | array _ _, _ => false
    | named x as, named y bs => x == y && as.length == bs.length
    | named _ _, _ => false
    | x, y => x.same y
termination_by sizeOf a
decreasing_by
  have := sizeOf_resolved_le a
  rw [_h] at this
  simp at this
  omega

end Impulse.Ty
