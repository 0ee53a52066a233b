import Impulse.Proofs.CallBindings
import Mathlib

/-!
# Accepted arguments fit

An argument is compared with the type of its parameter while the call is checked, with the bindings there are by then.
So it fits the parameter as it is bound right behind it. Behind the whole call it fits as well if the placeholders of the
parameter are still bound as they were. A placeholder can change behind the argument: it is inferred only where a
parameter of the bare type `$T` meets it, so the argument of an earlier parameter `^$T` is compared with an open type,
and a type that is given twice replaces the first one.
-/

namespace Impulse

open List

namespace Ty

theorem compatible_congr {a a' b b' : Ty} (left : a.resolved = a'.resolved) (right : b.resolved = b'.resolved) :
    a.compatible b = a'.compatible b' := by
  rw [compatible, compatible]
  generalize a.resolved = x at left ⊢
  generalize b.resolved = y at right ⊢
  subst left right
  rfl

theorem isComplete_pointee {t : Ty} (h : t.isComplete = true) : t.pointee.isComplete = true := by
  fun_induction pointee t with
  | case1 elem ih => exact ih h
  | case2 t => exact h

theorem pointeesCompatible_self {t : Ty} (h : t.isComplete = true) : t.pointeesCompatible t = true := by
  unfold pointeesCompatible
  split
  · rfl
  · split
    · rfl
    · cases t with
      | named name args => simp
      | absent => cases h
      | prim | pointer | array | placeholder | view => exact same_self h

theorem compatible_self {t : Ty} (h : t.isComplete = true) : t.compatible t = true := by
  have complete := isComplete_resolved h
  have smaller := sizeOf_resolved_le t
  rw [compatible]
  generalize t.resolved = shape at complete smaller ⊢
  split
  · rfl
  · split
    · rfl
    · split
      · rfl
      · cases shape with
        | pointer elem => exact pointeesCompatible_self (isComplete_pointee complete)
        | array elem length =>
          have : sizeOf elem < sizeOf t := by
            simp only [array.sizeOf_spec] at smaller
            omega
          exact compatible_self complete
        | named name args => simp
        | absent => cases complete
        | prim | placeholder | view => exact same_self complete
termination_by sizeOf t

theorem subst_congr (t : Ty) (same : ∀ x ∈ t.placeholders, b.find? x = b'.find? x) :
    t.subst b = t.subst b' := by
  induction t with
  | absent | prim => rfl
  | pointer elem ih | array elem _ ih | view elem _ ih => rw [subst, subst, ih same]
  | named name args ih =>
    rw [subst, subst, substAll_eq_map, substAll_eq_map]
    refine congrArg _ (map_congr_left fun arg mem => ih arg mem fun x here => ?_)
    exact same x (placeholders_subset_named name mem here)
  | placeholder x => rw [subst, subst, same x (mem_singleton_self x)]

end Ty

namespace Node

/-- The value fits its own type: no part of the type is missing, it is no view of a view, and if the value is a number,
it is a type that numbers have. -/
structure Settled (n : Node) : Prop where
  complete : n.ty.isComplete = true
  collapsed : n.ty.resolved.resolved = n.ty.resolved
  number : n.isNumber = true → (n.ty.resolved.isPointer || n.ty.resolved.isPlaceholder || n.ty.resolved.isNumeric ||
    n.ty.resolved.isAny) = true

variable {n : Node}

theorem Settled.accepts (h : n.Settled) : n.ty.resolved.accepts n = true := by
  have fits : n.ty.resolved.compatible n.ty = true :=
    (Ty.compatible_congr h.collapsed rfl).trans (Ty.compatible_self h.complete)
  have present := Ty.ne_absent_of_isComplete h.complete
  unfold Ty.accepts
  simp only [h.collapsed, fits, present, Bool.or_true, Bool.not_false, Bool.and_self]
  split
  · rfl
  · split
    · rfl
    · split <;> rfl
    · exact h.number rfl
    · rfl

theorem Settled.accepts_placeholder (h : n.Settled) (x : String) : (Ty.placeholder x).accepts n = true := by
  have fits : (Ty.placeholder x).compatible n.ty = true := by
    rw [Ty.compatible]
    simp [Ty.resolved, Ty.isPlaceholder]
  have present := Ty.ne_absent_of_isComplete h.complete
  unfold Ty.accepts
  simp only [Ty.resolved, fits, present]
  split
  · simp
  · split <;> rfl

end Node

/-- Every placeholder of the function is bound where it is used first: by a parameter that takes a type, no two of which
have the same name, or by a parameter whose whole type it is, and no earlier one uses it. -/
structure Signature.BindsFirst (sig : Signature) : Prop where
  distinct : (Call.typePlaceholders sig.params).Nodup
  named : "" ∉ Call.typePlaceholders sig.params
  bare : ∀ i p, sig.params[i]? = some p → ∀ x ∈ p.ty.placeholders, x ∉ Call.typePlaceholders sig.params →
    ∃ q ∈ sig.params.take (i + 1), q.ty = .placeholder x

namespace Call

variable {callee : String} {p : Param} {arg : Node} {b : Bindings}

theorem checkArg_accepts (h : checkArg callee declared position p arg b = .ok b') (value : takesType p = false)
    (settled : p.ty.isPlaceholder = true → arg.Settled) : (p.ty.subst b').accepts arg = true := by
  rcases checkArg_cases h with ⟨takes, -⟩ | ⟨-, -, ⟨x, open', -, rfl⟩ | ⟨-, accepted, rfl⟩⟩
  · cases value.symm.trans takes
  · -- The placeholder was open, or bound to another open type, which is bound now in its place.
    obtain ⟨y, type, bound⟩ := Ty.subst_eq_placeholder open'
    have settled : arg.Settled := settled (type ▸ rfl)
    rw [type, Ty.subst, Bindings.find?_bind]
    split
    · exact settled.accepts
    · next other =>
      rcases bound with ⟨rfl, -⟩ | found
      · exact absurd rfl other
      · rw [found]
        exact settled.accepts_placeholder x
  · exact accepted

theorem find?_isSome_checkArg (h : checkArg callee declared position p arg b = .ok b')
    (bound : (b.find? x).isSome = true) : (b'.find? x).isSome = true := by
  have kept (y : String) (ty : Ty) : ((b.bind y ty).find? x).isSome = true := by
    rw [Bindings.find?_bind]
    split
    · rfl
    · exact bound
  rcases checkArg_cases h with ⟨-, ty, -, rfl⟩ | ⟨-, -, ⟨y, -, -, rfl⟩ | ⟨-, -, rfl⟩⟩
  · exact kept _ _
  · exact kept _ _
  · exact bound

theorem find?_isSome_of_bare (h : checkArg callee declared position p arg b = .ok b') (value : takesType p = false)
    (bare : p.ty = .placeholder x) (free : x ∉ declared) : (b'.find? x).isSome = true := by
  cases found : b.find? x with
  | some ty => exact find?_isSome_checkArg h (found ▸ rfl)
  | none =>
    have open' : p.ty.subst b = .placeholder x := by rw [bare, Ty.subst, found]; rfl
    rcases checkArg_cases h with ⟨takes, -⟩ | ⟨-, -, ⟨y, same, -, rfl⟩ | ⟨closed, -⟩⟩
    · cases value.symm.trans takes
    · obtain rfl := Ty.placeholder.inj (open'.symm.trans same)
      rw [Bindings.find?_bind, if_pos rfl]
      rfl
    · exact absurd (closed x open') free

theorem checkArgs_binds (h : checkArgs callee declared position b pairs = .ok b') (mem : (p, arg) ∈ pairs)
    (binds : ∀ position b b', checkArg callee declared position p arg b = .ok b' → (b'.find? x).isSome = true) :
    (b'.find? x).isSome = true := by
  obtain ⟨before, after, rfl⟩ := append_of_mem mem
  obtain ⟨mid, -, rest⟩ := checkArgs_append h
  rw [checkArgs] at rest
  split at rest
  · cases rest
  · next b₁ first =>
    exact checkArgs_preserves (binds _ _ _ first) (fun _ _ _ _ _ _ bound step => find?_isSome_checkArg step bound) rest

theorem mem_of_find?_isSome (h : checkArgs callee declared position [] pairs = .ok b) (known : x ∈ declared)
    (bound : (b.find? x).isSome = true) : x ∈ typePlaceholders (pairs.map (·.1)) := by
  refine checkArgs_preserves (b := [])
    (P := fun b => (b.find? x).isSome = true → x ∈ typePlaceholders (pairs.map (·.1))) ?_ ?_ h bound
  · intro bound
    cases bound
  · intro position p arg b b' mem ih step bound
    rcases checkArg_cases step with ⟨takes, ty, -, rfl⟩ | ⟨-, -, ⟨y, -, other, rfl⟩ | ⟨-, -, rfl⟩⟩
    · rw [Bindings.find?_bind] at bound
      split at bound
      · next same => exact mem_typePlaceholders.mpr ⟨p, mem_map_of_mem mem, takes, same.symm⟩
      · exact ih bound
    · rw [Bindings.find?_bind, if_neg (ne_of_mem_of_not_mem known other)] at bound
      exact ih bound
    · exact ih bound

theorem find?_checkArgs (h : checkArgs callee declared position b pairs' = .ok b') (sub : pairs' ⊆ pairs)
    (names : Names pairs b) (bound : (b.find? x).isSome = true) (foreign : ∀ q ∈ pairs, ¬ q.2.Offers (.placeholder x))
    (other : ∀ q ∈ pairs', takesType q.1 = true → q.1.name ≠ x) : b'.find? x = b.find? x := by
  refine (checkArgs_preserves (P := fun b' => Names pairs b' ∧ b'.find? x = b.find? x) ⟨names, rfl⟩ ?_ h).2
  rintro position p arg b₁ b₂ mem ⟨names₁, same⟩ step
  refine ⟨names₁.step (sub mem) step, ?_⟩
  rcases checkArg_cases step with ⟨takes, ty, -, rfl⟩ | ⟨-, -, ⟨y, open', -, rfl⟩ | ⟨-, -, rfl⟩⟩
  · rw [Bindings.find?_bind, if_neg (other _ mem takes).symm, same]
  · rw [Bindings.find?_bind, if_neg, same]
    rintro rfl
    obtain ⟨z, -, ⟨rfl, unbound⟩ | found⟩ := Ty.subst_eq_placeholder open'
    · rw [← same, unbound] at bound
      cases bound
    · obtain ⟨q, mem, offers⟩ := names₁.values z _ found
      exact foreign q mem offers
  · exact same

theorem find?_isSome_of_missing? (h : missing? declared b ty = none) (use : x ∈ ty.placeholders)
    (named : x ≠ "") (known : x ∈ declared) : (b.find? x).isSome = true := by
  have := List.find?_eq_none.mp h x use
  simpa [named, known, Option.isSome_iff_ne_none] using this

theorem checkArg_of_singleton (h : checkArgs callee declared position b [(p, arg)] = .ok b') :
    checkArg callee declared position p arg b = .ok b' := by
  rw [checkArgs] at h
  split at h
  · cases h
  · next b₁ first =>
    cases h
    exact first

theorem find?_of_bindsFirst {sig : Signature} {before after : List (Param × Node)} (first : sig.BindsFirst)
    (params : sig.params = (before ++ (p, arg) :: after).map (·.1))
    (foreign : ∀ q ∈ before ++ (p, arg) :: after, ¬ q.2.Offers (.placeholder x)) (value : takesType p = false)
    (through : checkArgs callee (typePlaceholders sig.params) 1 [] (before ++ [(p, arg)]) = .ok b)
    (back : checkArgs callee (typePlaceholders sig.params) position b after = .ok b')
    (use : x ∈ p.ty.placeholders) : b'.find? x = b.find? x := by
  have names : Names (before ++ (p, arg) :: after) b := (checkArgs_names through).mono (by simp)
  obtain ⟨b₀, front, last⟩ := checkArgs_append through
  have here := checkArg_of_singleton last
  have later {q : Param × Node} (mem : q ∈ after) (takes : takesType q.1 = true) :
      q.1.name ∈ typePlaceholders (after.map (·.1)) :=
    mem_typePlaceholders.mpr ⟨q.1, mem_map_of_mem mem, takes, rfl⟩
  have parts : typePlaceholders sig.params =
      typePlaceholders (before.map (·.1)) ++ typePlaceholders (after.map (·.1)) := by
    simp [params, typePlaceholders, value]
  by_cases known : x ∈ typePlaceholders sig.params
  · -- The type was given before, and it is given only once.
    have named : x ≠ "" := ne_of_mem_of_not_mem known first.named
    have bound : (b₀.find? x).isSome = true := by
      rcases checkArg_cases here with ⟨takes, -⟩ | ⟨-, missing, -⟩
      · cases value.symm.trans takes
      · exact find?_isSome_of_missing? missing use named known
    have earlier : x ∈ typePlaceholders (before.map (·.1)) := mem_of_find?_isSome front known bound
    refine find?_checkArgs back (by simp) names (find?_isSome_checkArg here bound) foreign ?_
    intro q mem takes same
    have distinct := first.distinct
    rw [parts] at distinct
    exact (nodup_append.mp distinct).2.2 _ earlier _ (later mem takes) same.symm
  · -- It was inferred by now, and no later argument gives it.
    have at' : sig.params[before.length]? = some p := by simp [params]
    obtain ⟨q, mem, bare⟩ := first.bare _ _ at' x use known
    have upTo : sig.params.take (before.length + 1) = (before ++ [(p, arg)]).map (·.1) := by
      simp [params, take_append, take_of_length_le]
    obtain ⟨⟨q, a⟩, pair, rfl⟩ := mem_map.mp (upTo ▸ mem)
    have value' : takesType q = false := by
      rw [Bool.eq_false_iff]
      intro takes
      obtain rfl : q.name = x := Ty.placeholder.inj ((takesType_iff.mp takes).symm.trans bare)
      exact known (mem_typePlaceholders.mpr ⟨q, mem_of_mem_take mem, takes, rfl⟩)
    have bound : (b.find? x).isSome = true :=
      checkArgs_binds through pair fun _ _ _ step => find?_isSome_of_bare step value' bare known
    refine find?_checkArgs back (by simp) names bound foreign ?_
    intro q mem takes same
    refine known ?_
    rw [parts]
    exact mem_append_right _ (same ▸ later mem takes)

/-- The value that is passed for a parameter fits its type with the bindings of the whole call, if the placeholders of the
type are bound as they were behind the argument. They are if the function binds its placeholders first and no argument
offers one of them as an open type. Where the type is a mere placeholder, the value has to fit its own type. -/
theorem check_sound {functions : Table Signature} {sig : Signature} {args : List Node} {i : Nat}
    (known : functions.get? callee = some sig) (fixed : sig.variadic = false)
    (checked : check functions callee args = .ok b) (param : sig.params[i]? = some p) (given : args[i]? = some arg)
    (value : takesType p = false) (settled : p.ty.isPlaceholder = true → arg.Settled) :
    ∃ b', checkArgs callee (typePlaceholders sig.params) 1 [] ((sig.params.zip args).take (i + 1)) = .ok b' ∧
      ((∀ x ∈ p.ty.placeholders, b.find? x = b'.find? x) → (p.ty.subst b).accepts arg = true) ∧
      (sig.BindsFirst → (∀ a ∈ args, ∀ x ∈ sig.placeholders, ¬ a.Offers (.placeholder x)) →
        (p.ty.subst b).accepts arg = true) := by
  obtain ⟨sig', known', from'⟩ := check_ok checked
  obtain rfl := Option.some.inj (known.symm.trans known')
  obtain ⟨variadic, -⟩ | ⟨-, counted, run⟩ := from'
  · cases fixed.symm.trans variadic
  have params : sig.params = (sig.params.zip args).map (·.1) := (map_fst_zip (by omega)).symm
  have pair : (sig.params.zip args)[i]? = some (p, arg) := List.getElem?_zip_eq_some.mpr ⟨param, given⟩
  obtain ⟨bound, pair⟩ := List.getElem?_eq_some_iff.mp pair
  generalize before : (sig.params.zip args).take i = front
  generalize after : (sig.params.zip args).drop (i + 1) = back
  have whole : sig.params.zip args = front ++ (p, arg) :: back := by
    rw [← before, ← after, ← pair, ← drop_eq_getElem_cons bound, take_append_drop]
  have upTo : (sig.params.zip args).take (i + 1) = front ++ [(p, arg)] := by
    rw [← before, ← pair, take_append_getElem]
  rw [whole, append_cons] at run
  obtain ⟨b', through, rest⟩ := checkArgs_append run
  obtain ⟨b₀, -, last⟩ := checkArgs_append through
  have fits : (p.ty.subst b').accepts arg = true := checkArg_accepts (checkArg_of_singleton last) value settled
  have kept (same : ∀ x ∈ p.ty.placeholders, b.find? x = b'.find? x) : (p.ty.subst b).accepts arg = true :=
    Ty.subst_congr p.ty same ▸ fits
  refine ⟨b', upTo ▸ through, kept, fun first foreign => kept fun x use => ?_⟩
  have foreign' : ∀ q ∈ front ++ (p, arg) :: back, ¬ q.2.Offers (.placeholder x) := by
    rw [← whole]
    intro q mem
    exact foreign q.2 (of_mem_zip mem).2 x (mem_flatMap.mpr ⟨p, mem_of_getElem? param, use⟩)
  exact find?_of_bindsFirst first (whole ▸ params) foreign' value through rest use

/-- A pointer is passed for a parameter whose placeholder is bound by the type in front of it. -/
theorem check_sound_pointer :
    let sig : Signature :=
      { name := "f", generic := true,
        params := [⟨"T", .placeholder "T"⟩, ⟨"a", .pointer (.placeholder "T")⟩, ⟨"c", .placeholder "U"⟩] }
    let args : List Node := [.node default .typeid (.typeName .int), .node default (.pointer .int) (.name "a" false),
      .node default .bool (.name "c" false)]
    check (({} : Table Signature).add "f" sig "") "f" args = .ok [("T", .int), ("U", .bool)] ∧
      (Ty.pointer .int).accepts (.node default (.pointer .int) (.name "a" false)) = true := by
  intro sig args
  have checked : check (({} : Table Signature).add "f" sig "") "f" args = .ok [("T", .int), ("U", .bool)] := by
    unfold sig args
    cbv
  have first : sig.BindsFirst := by
    refine ⟨by decide, by decide, fun i p param x use free => ?_⟩
    rcases i with _ | _ | _ | i
    · cases param
      exact absurd (mem_singleton.mp use ▸ mem_singleton_self "T") free
    · cases param
      exact absurd (mem_singleton.mp use ▸ mem_singleton_self "T") free
    · cases param
      exact ⟨⟨"c", .placeholder "U"⟩, by simp [sig], mem_singleton.mp use ▸ rfl⟩
    · cases param
  have foreign : ∀ a ∈ args, ∀ x ∈ sig.placeholders, ¬ a.Offers (.placeholder x) := by
    intro a mem x _ offers
    simp only [args, mem_cons, not_mem_nil, or_false] at mem
    rcases mem with rfl | rfl | rfl <;> rcases offers with value | type
    all_goals first | cases value | cases type
  obtain ⟨b', -, -, fits⟩ := check_sound (i := 1) (by rfl) rfl checked rfl rfl rfl (by intro open'; cases open')
  exact ⟨checked, fits first foreign⟩

/-- The pointer is compared with an open type, since the placeholder is bound only behind it, and it does not fit the
type that the placeholder gets there. -/
theorem check_binds_late :
    let sig : Signature :=
      { name := "f", generic := true, params := [⟨"a", .pointer (.placeholder "T")⟩, ⟨"b", .placeholder "T"⟩] }
    let arg : Node := .node default (.pointer .int) (.name "p" false)
    let b : Bindings := [("T", .bool)]
    check (({} : Table Signature).add "f" sig "") "f" [arg, .node default .bool (.name "c" false)] = .ok b ∧
      ((Ty.pointer (.placeholder "T")).subst b).accepts arg = false := by
  intro sig arg b
  constructor
  · unfold sig arg b
    cbv
  · unfold arg b
    cbv

end Call

end Impulse
