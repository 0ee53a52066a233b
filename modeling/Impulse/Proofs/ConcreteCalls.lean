import Impulse.Proofs.FittingArguments
import Impulse.Proofs.Renaming

/-!
# Calls with a concrete type

The result of a call has the result type of the function, with the bindings of the call put in. If the arguments bring no
placeholders along, a binding never holds one, so the result is concrete if every placeholder of the result type is bound.
A placeholder is bound by a parameter whose whole type it is, and by no other one: the argument for a parameter `^$T` or
`Pair($T)` is compared with an open type, and leaves the placeholder open.
-/

namespace Impulse

open List

namespace Ty

theorem hasPlaceholder_eq_false_iff (t : Ty) : t.hasPlaceholder = false ↔ t.placeholders = [] := by
  induction t with
  | absent | prim | placeholder => simp [hasPlaceholder, placeholders]
  | pointer elem ih | array elem _ ih | view elem _ ih => rw [hasPlaceholder, placeholders, ih]
  | named name args ih =>
    have any : anyPlaceholder args = args.any hasPlaceholder := by
      clear ih
      induction args with
      | nil => rfl
      | cons t ts ih => rw [anyPlaceholder, ih, any_cons]
    rw [hasPlaceholder, placeholders, any, placeholdersAll_eq_flatMap, flatMap_eq_nil_iff, any_eq_false]
    exact forall₂_congr fun arg mem => by rw [Bool.not_eq_true, ih arg mem]

theorem placeholders_subst (b : Bindings) (t : Ty) :
    (t.subst b).placeholders = t.placeholders.flatMap fun x => ((b.find? x).getD (.placeholder x)).placeholders := by
  induction t with
  | absent | prim => rfl
  | pointer elem ih | array elem _ ih | view elem _ ih => exact ih
  | named name args ih =>
    rw [subst, placeholders, placeholders, placeholdersAll_eq_flatMap, placeholdersAll_eq_flatMap, substAll_eq_map,
      flatMap_map, flatMap_assoc]
    exact flatMap_congr ih
  | placeholder x => rw [subst, placeholders, flatMap_singleton]

theorem hasPlaceholder_resolved {t : Ty} (h : t.hasPlaceholder = false) : t.resolved.hasPlaceholder = false := by
  rw [hasPlaceholder_eq_false_iff, eq_nil_iff_forall_not_mem] at h ⊢
  exact fun x mem => h x (t.placeholders_resolved mem)

theorem hasPlaceholder_subst_iff {t : Ty} : (t.subst b).hasPlaceholder = false ↔
    ∀ x ∈ t.placeholders, ∃ bound, b.find? x = some bound ∧ bound.hasPlaceholder = false := by
  rw [hasPlaceholder_eq_false_iff, placeholders_subst, flatMap_eq_nil_iff]
  refine forall₂_congr fun x _ => ?_
  cases b.find? x with
  | none => simp [placeholders]
  | some bound => simp [hasPlaceholder_eq_false_iff]

end Ty

namespace Call

/-- Only placeholders that are the whole type of a parameter are bound, and those to concrete types. -/
structure Binds (pairs : List (Param × Node)) (b : Bindings) : Prop where
  bare : ∀ x, (b.find? x).isSome = true → ∃ q ∈ pairs, q.1.ty = .placeholder x
  concrete : ∀ x ty, b.find? x = some ty → ty.hasPlaceholder = false

theorem Binds.nil : Binds pairs [] := by
  constructor
  · intro x bound
    cases bound
  · intro x ty found
    cases found

theorem Binds.bind (h : Binds pairs b) (mem : (p, arg) ∈ pairs) (whole : p.ty = .placeholder x)
    (concrete : ty.hasPlaceholder = false) : Binds pairs (b.bind x ty) := by
  constructor
  · intro y bound
    rw [Bindings.find?_bind] at bound
    split at bound
    · next same => exact ⟨_, mem, same ▸ whole⟩
    · exact h.bare y bound
  · intro y ty' found
    rw [Bindings.find?_bind] at found
    split at found
    · exact Option.some.inj found ▸ concrete
    · exact h.concrete y ty' found

theorem Binds.step (h : Binds pairs b) (mem : (p, arg) ∈ pairs) (type : arg.ty.hasPlaceholder = false)
    (given : takesType p = true → ∀ ty, arg.typeValue? = some ty → ty.hasPlaceholder = false)
    (checked : checkArg callee declared position p arg b = .ok b') : Binds pairs b' := by
  rcases checkArg_cases checked with ⟨takes, ty, value, rfl⟩ | ⟨-, -, ⟨x, open', -, rfl⟩ | ⟨-, -, rfl⟩⟩
  · exact h.bind mem (takesType_iff.mp takes) (given takes ty value)
  · -- Nothing is bound to an open type, so the open type is that of the parameter itself.
    obtain ⟨y, whole, ⟨rfl, -⟩ | found⟩ := Ty.subst_eq_placeholder open'
    · exact h.bind mem whole (Ty.hasPlaceholder_resolved type)
    · cases h.concrete y _ found
  · exact h

theorem find?_isSome_of_takesType (h : checkArg callee declared position p arg b = .ok b')
    (takes : takesType p = true) : (b'.find? p.name).isSome = true := by
  rcases checkArg_cases h with ⟨-, ty, -, rfl⟩ | ⟨value, -⟩
  · rw [Bindings.find?_bind, if_pos rfl]
    rfl
  · cases value.symm.trans takes

theorem find?_isSome_of_param (counted : args.length = params.length)
    (h : checkArgs callee (typePlaceholders params) position b (params.zip args) = .ok b') (mem : p ∈ params)
    (whole : p.ty = .placeholder x) : (b'.find? x).isSome = true := by
  have pair {q : Param} (mem : q ∈ params) : ∃ arg, (q, arg) ∈ params.zip args := by
    rw [← map_fst_zip (Nat.le_of_eq counted.symm)] at mem
    obtain ⟨⟨q, arg⟩, pair, rfl⟩ := mem_map.mp mem
    exact ⟨arg, pair⟩
  by_cases known : x ∈ typePlaceholders params
  · obtain ⟨q, mem', takes, rfl⟩ := mem_typePlaceholders.mp known
    obtain ⟨arg, given⟩ := pair mem'
    exact checkArgs_binds h given fun _ _ _ step => find?_isSome_of_takesType step takes
  · obtain ⟨arg, given⟩ := pair mem
    have value : takesType p = false := by
      rw [Bool.eq_false_iff]
      intro takes
      have named : p.name = x := Ty.placeholder.inj ((takesType_iff.mp takes).symm.trans whole)
      exact known (mem_typePlaceholders.mpr ⟨p, mem, takes, named⟩)
    exact checkArgs_binds h given fun _ _ _ step => find?_isSome_of_bare step value whole known

/-- Let the arguments of a call have concrete types, and let the types be concrete that they give for parameters which
take one. Then the result of an accepted call is concrete if and only if every placeholder of the result type is the
whole type of a parameter. -/
theorem check_concrete {functions : Table Signature} {sig : Signature} {args : List Node}
    (known : functions.get? callee = some sig) (fixed : sig.variadic = false)
    (types : ∀ arg ∈ args, arg.ty.hasPlaceholder = false) (given : ∀ q ∈ sig.params.zip args, takesType q.1 = true →
      ∀ ty, q.2.typeValue? = some ty → ty.hasPlaceholder = false) (checked : check functions callee args = .ok b) :
    (sig.ret.subst b).hasPlaceholder = false ↔ ∀ x ∈ sig.ret.placeholders, ∃ p ∈ sig.params, p.ty = .placeholder x := by
  obtain ⟨sig', known', from'⟩ := check_ok checked
  obtain rfl := Option.some.inj (known.symm.trans known')
  obtain ⟨variadic, -⟩ | ⟨-, counted, run⟩ := from'
  · cases fixed.symm.trans variadic
  have binds : Binds (sig.params.zip args) b :=
    checkArgs_preserves .nil (fun _ p arg _ _ mem binds step =>
      binds.step mem (types arg (of_mem_zip mem).2) (given _ mem) step) run
  rw [Ty.hasPlaceholder_subst_iff]
  refine forall₂_congr fun x _ => ⟨?_, ?_⟩
  · rintro ⟨bound, found, -⟩
    obtain ⟨q, mem, whole⟩ := binds.bare x (found ▸ rfl)
    exact ⟨q.1, (of_mem_zip mem).1, whole⟩
  · rintro ⟨p, mem, whole⟩
    obtain ⟨bound, found⟩ := Option.isSome_iff_exists.mp (find?_isSome_of_param counted run mem whole)
    exact ⟨bound, found, binds.concrete x bound found⟩

/-- A function that takes a type, a value of another type, and a pair of both. -/
def pairing : Signature where
  name := "pair"
  generic := true
  ret := .named "Pair" [.placeholder "T", .pointer (.placeholder "U")]
  params := [⟨"T", .placeholder "T"⟩, ⟨"u", .placeholder "U"⟩,
    ⟨"p", .pointer (.named "Pair" [.placeholder "T", .placeholder "U"])⟩]

/-- The result is a concrete pair if concrete arguments are passed. -/
theorem check_concrete_pairing :
    let functions : Table Signature := ({} : Table Signature).add "pair" pairing ""
    let args : List Node := [.node default .typeid (.typeName .bool), .node default .int (.name "u" false),
      .node default (.pointer (.named "Pair" [.bool, .int])) (.name "p" false)]
    check functions "pair" args = .ok [("T", .bool), ("U", .int)] ∧
      (pairing.ret.subst [("T", .bool), ("U", .int)]).hasPlaceholder = false := by
  intro functions args
  have checked : check functions "pair" args = .ok [("T", .bool), ("U", .int)] := by
    unfold functions args
    cbv
  have known : functions.get? "pair" = some pairing := rfl
  refine ⟨checked, (check_concrete known rfl ?_ ?_ checked).mpr ?_⟩
  · simp [args, Ty.typeid, Ty.int, Ty.bool, Node.ty, Ty.hasPlaceholder, Ty.anyPlaceholder]
  · simp [args, pairing, takesType, Node.typeValue?, Ty.bool, Ty.hasPlaceholder]
  · simp [pairing, Ty.placeholders, Ty.placeholdersAll]

/-- The placeholder of a pointer stays open, though the pointer that is passed leads to an integer. And a type that is
given by a variable is the placeholder of its name. -/
theorem check_leaves_open :
    let read : Signature :=
      { name := "read", generic := true, ret := .placeholder "T", params := [⟨"p", .pointer (.placeholder "T")⟩] }
    let make : Signature :=
      { name := "make", generic := true, ret := .placeholder "T", params := [⟨"T", .placeholder "T"⟩] }
    let functions : Table Signature := (({} : Table Signature).add "read" read "").add "make" make ""
    ((∀ x ∈ read.ret.placeholders, x ∈ read.placeholders) ∧
      check functions "read" [.node default (.pointer .int) (.name "p" false)] = .ok [] ∧
      (read.ret.subst []).hasPlaceholder = true) ∧
    (∀ x ∈ make.ret.placeholders, x ∈ make.placeholders) ∧
      check functions "make" [.node default .typeid (.name "t" false)] = .ok [("T", .placeholder "t")] ∧
      (make.ret.subst [("T", .placeholder "t")]).hasPlaceholder = true := by
  intro read make functions
  refine ⟨⟨?_, ?_, rfl⟩, ?_, ?_, rfl⟩
  · simp [read, Signature.placeholders, Ty.placeholders]
  · unfold functions read make
    cbv
  · simp [make, Signature.placeholders, Ty.placeholders]
  · unfold functions read make
    cbv

end Call

end Impulse
