import Impulse.Proofs.CallBindings
import Mathlib

/-!
# Calls and the names of placeholders

The arguments of a call bring placeholders along: those of the function the call stands in. Renaming them changes the
types of the arguments, the types that are bound and the types that a problem shows. It does not change whether
arguments fit, as long as different names stay different and none of them is, or becomes, a placeholder of the function
that is called.
-/

namespace Impulse

open List

variable {sig : Signature} {ty : Ty} (t : Ty) (n : Node)

namespace Ty

mutual

def rename (f : String → String) : Ty → Ty
  | absent => absent
  | prim p => prim p
  | pointer elem => pointer (elem.rename f)
  | array elem length => array (elem.rename f) length
  | named name args => named name (renameAll f args)
  | placeholder name => placeholder (f name)
  | view base index => view (base.rename f) index

def renameAll (f : String → String) : List Ty → List Ty
  | [] => []
  | t :: ts => t.rename f :: renameAll f ts

end

theorem renameAll_eq_map (f : String → String) (ts : List Ty) : renameAll f ts = ts.map (rename f) := by
  induction ts with
  | nil => rfl
  | cons t ts ih => rw [renameAll, ih, map_cons]

theorem rename_congr (t : Ty) (h : ∀ x ∈ t.placeholders, f x = g x) : t.rename f = t.rename g := by
  induction t with
  | absent | prim => rfl
  | pointer elem ih | array elem _ ih | view elem _ ih => rw [rename, rename, ih h]
  | named name args ih =>
    rw [rename, rename, renameAll_eq_map, renameAll_eq_map]
    refine congrArg _ (map_congr_left fun arg mem => ih arg mem fun x here => ?_)
    exact h x (placeholders_subset_named name mem here)
  | placeholder x => rw [rename, rename, h x (mem_singleton_self x)]

theorem rename_id (t : Ty) : t.rename id = t := by
  induction t with
  | absent | prim | placeholder => rfl
  | pointer elem ih | array elem _ ih | view elem _ ih => rw [rename, ih]
  | named name args ih =>
    rw [rename, renameAll_eq_map]
    exact congrArg _ ((map_congr_left ih).trans (map_id _))

@[simp]
theorem isAbsent_rename : (t.rename f).isAbsent = t.isAbsent := by
  cases t <;> rfl

@[simp]
theorem isVoid_rename : (t.rename f).isVoid = t.isVoid := by
  cases t <;> rfl

@[simp]
theorem isAny_rename : (t.rename f).isAny = t.isAny := by
  cases t <;> rfl

@[simp]
theorem isTypeid_rename : (t.rename f).isTypeid = t.isTypeid := by
  cases t <;> rfl

@[simp]
theorem isPlaceholder_rename : (t.rename f).isPlaceholder = t.isPlaceholder := by
  cases t <;> rfl

@[simp]
theorem isPointer_rename : (t.rename f).isPointer = t.isPointer := by
  cases t <;> rfl

@[simp]
theorem isNumeric_rename : (t.rename f).isNumeric = t.isNumeric := by
  cases t <;> rfl

theorem element?_rename (f : String → String) (t : Ty) : (t.rename f).element? = t.element?.map (rename f) := by
  fun_induction element? t with
  | case1 | case2 | case7 => simp_all [rename, element?]
  | case3 | case4 | case5 | case6 => simp_all [rename, renameAll, element?, char]
  | case8 t h₁ h₂ h₃ h₄ h₅ =>
    cases t with
    | named name args =>
      cases args with
      | nil => exact absurd rfl (h₃ name)
      | cons arg args =>
        cases args with
        | nil => exact absurd rfl (h₄ name arg)
        | cons => rfl
    | absent | prim | pointer | array | placeholder | view => simp_all [rename, element?]

theorem resolved_rename (f : String → String) (t : Ty) : (t.rename f).resolved = t.resolved.rename f := by
  cases t with
  | view base index =>
    rw [rename, resolved, resolved, element?_rename]
    cases base.element? <;> rfl
  | absent | prim | pointer | array | named | placeholder => rfl

theorem pointee_rename (f : String → String) : (t : Ty) → (t.rename f).pointee = t.pointee.rename f
  | pointer elem => by rw [rename, pointee, pointee, pointee_rename f elem]
  | absent => rfl
  | prim _ => rfl
  | array _ _ => rfl
  | named _ _ => rfl
  | placeholder _ => rfl
  | view _ _ => rfl

theorem placeholders_element? {t e : Ty} (found : t.element? = some e) : e.placeholders ⊆ t.placeholders := by
  fun_induction element? t with
  | case1 | case2 =>
    cases found
    exact List.Subset.refl _
  | case3 =>
    cases found
    exact nil_subset _
  | case5 name arg =>
    cases found
    exact subset_append_left _ _
  | case7 base index ih => exact ih found
  | case4 | case6 | case8 => cases found

theorem placeholders_resolved : t.resolved.placeholders ⊆ t.placeholders := by
  cases t with
  | view base index =>
    rw [resolved]
    cases found : base.element? with
    | none => exact List.Subset.refl _
    | some e => exact placeholders_element? found
  | absent | prim | pointer | array | named | placeholder => exact List.Subset.refl _

mutual

theorem same_rename (inj : Function.Injective f) : (a b : Ty) → (a.rename f).same (b.rename f) = a.same b
  | absent, b => by cases b <;> rfl
  | prim _, b => by cases b <;> simp [rename, same]
  | pointer a, b => by cases b <;> simp [rename, same, same_rename inj a]
  | array a _, b => by cases b <;> simp [rename, same, same_rename inj a]
  | named _ as, b => by cases b <;> simp [rename, same, sameAll_rename inj as]
  | placeholder x, b => by cases b <;> simp [rename, same, inj.eq_iff]
  | view a _, b => by cases b <;> simp [rename, same, same_rename inj a]

theorem sameAll_rename (inj : Function.Injective f) : (as bs : List Ty) →
    sameAll (renameAll f as) (renameAll f bs) = sameAll as bs
  | [], [] => rfl
  | [], _ :: _ => rfl
  | _ :: _, [] => rfl
  | a :: as, b :: bs => by
    rw [renameAll, renameAll, sameAll, sameAll, same_rename inj a b, sameAll_rename inj as bs]

end

theorem pointeesCompatible_rename (inj : Function.Injective f) (a b : Ty) :
    (a.rename f).pointeesCompatible (b.rename f) = a.pointeesCompatible b := by
  have equal := same_rename inj a b
  unfold pointeesCompatible
  rw [isVoid_rename, isVoid_rename, isPlaceholder_rename, isPlaceholder_rename]
  cases a with
  | named x as =>
    cases b with
    | named y bs => simp only [rename, renameAll_eq_map, length_map]
    | absent | prim | pointer | array | placeholder | view => rfl
  | absent | prim | pointer | array | placeholder | view =>
    simp only [rename] at equal ⊢
    rw [equal]

theorem compatible_rename (inj : Function.Injective f) (a b : Ty) :
    (a.rename f).compatible (b.rename f) = a.compatible b := by
  have size := sizeOf_resolved_le a
  have left := resolved_rename f a
  rw [compatible, compatible, resolved_rename f b]
  generalize (a.rename f).resolved = x' at left ⊢
  subst left
  generalize a.resolved = x at size ⊢
  generalize b.resolved = y
  have equal := same_rename inj x y
  simp only [isAny_rename, isPlaceholder_rename, isNumeric_rename]
  congr 3
  cases x with
  | pointer x =>
    cases y with
    | pointer y | array y length =>
      simp only [rename, pointee_rename]
      exact pointeesCompatible_rename inj _ _
    | absent | prim | named | placeholder | view => rfl
  | array x length =>
    cases y with
    | array y length' =>
      simp only [rename]
      exact compatible_rename inj x y
    | absent | prim | pointer | named | placeholder | view => rfl
  | named name args =>
    cases y with
    | named name' args' => simp only [rename, renameAll_eq_map, length_map]
    | absent | prim | pointer | array | placeholder | view => rfl
  | absent | prim | placeholder | view => exact equal
termination_by sizeOf a
decreasing_by
  simp only [Ty.array.sizeOf_spec] at size
  omega

end Ty

namespace Bindings

variable {b : Bindings}

/-- The bindings with other names for what is bound, and for placeholders in what it is bound to. -/
def rename (f : String → String) (b : Bindings) : Bindings :=
  b.map fun e => (f e.1, e.2.rename f)

theorem find?_rename (inj : Function.Injective f) (x : String) :
    (b.rename f).find? (f x) = (b.find? x).map (Ty.rename f) := by
  have keys : ∀ e ∈ b, (f e.1 == f x) = (e.1 == x) := fun e _ => inj.beq_eq
  unfold find? rename
  rw [List.find?_map, Option.map_map, Option.map_map]
  exact congrArg (Option.map _) (List.find?_congr keys)

theorem bind_rename (inj : Function.Injective f) (x : String) (ty : Ty) :
    (b.rename f).bind (f x) (ty.rename f) = (b.bind x ty).rename f := by
  have known : (b.rename f).any (·.1 == f x) = b.any (·.1 == x) := by
    rw [rename, any_map]
    exact congrArg _ (funext fun e => inj.beq_eq)
  unfold bind
  rw [known]
  split
  · unfold rename
    rw [map_map, map_map]
    refine map_congr_left fun e _ => ?_
    simp only [Function.comp_apply, inj.beq_eq]
    split <;> rfl
  · simp [rename]

end Bindings

namespace Ty

theorem subst_rename (inj : Function.Injective f) (t : Ty) : (t.rename f).subst (b.rename f) = (t.subst b).rename f := by
  induction t with
  | absent | prim => rfl
  | pointer elem ih | array elem _ ih | view elem _ ih => rw [rename, subst, subst, rename, ih]
  | named name args ih =>
    rw [rename, subst, subst, rename, renameAll_eq_map, renameAll_eq_map, substAll_eq_map, substAll_eq_map,
      map_map, map_map]
    exact congrArg _ (map_congr_left ih)
  | placeholder x =>
    rw [rename, subst, subst, Bindings.find?_rename inj x]
    cases b.find? x <;> rfl

end Ty

/-- The form with other names for the placeholders it stands for as a type. A variable that holds a type stands for the
placeholder of its name. -/
def Form.rename (f : String → String) (holdsType : Bool) : Form Node → Form Node
  | typeName ty => typeName (ty.rename f)
  | name x flat => name (if holdsType then f x else x) flat
  | form => form

namespace Node

/-- The argument with other names for the placeholders of its type, and of the type that it stands for. -/
def rename (f : String → String) : Node → Node
  | absent => absent
  | node t ty form => node t (ty.rename f) (form.rename f ty.isTypeid)

/-- The placeholders that an argument brings along: those of its type, and of the type that it stands for. -/
def openNames (n : Node) : List String :=
  n.ty.placeholders ++ (n.typeValue?.elim [] Ty.placeholders)

theorem Offers.mem_openNames {n : Node} (h : n.Offers ty) (hx : x ∈ ty.placeholders) : x ∈ n.openNames := by
  rcases h with value | rfl
  · refine mem_append_right _ ?_
    rw [value]
    exact hx
  · exact mem_append_left _ (n.ty.placeholders_resolved hx)

theorem isAbsent_rename : (n.rename f).isAbsent = n.isAbsent := by
  cases n <;> rfl

theorem ty_rename : (n.rename f).ty = n.ty.rename f := by
  cases n <;> rfl

theorem typeValue?_name (t : Token) (ty : Ty) (x : String) (flat : Bool) :
    (node t ty (.name x flat)).typeValue? = if ty.isTypeid then some (.placeholder x) else none := by
  cases ty with
  | prim p => cases p <;> rfl
  | absent | pointer | array | named | placeholder | view => rfl

theorem typeValue?_rename : (n.rename f).typeValue? = n.typeValue?.map (Ty.rename f) := by
  cases n with
  | absent => rfl
  | node t ty form =>
    cases form with
    | typeName u => rfl
    | name x flat =>
      rw [rename, Form.rename, typeValue?_name, typeValue?_name, Ty.isTypeid_rename]
      cases ty.isTypeid <;> rfl
    | _ => rfl

theorem rename_congr {n : Node} (h : ∀ x ∈ n.openNames, f x = g x) : n.rename f = n.rename g := by
  obtain ⟨types, values⟩ := forall_mem_append.mp h
  cases n with
  | absent => rfl
  | node t ty form =>
    rw [rename, rename, Ty.rename_congr ty types]
    congr 1
    cases form with
    | typeName u => exact congrArg _ (Ty.rename_congr u values)
    | name x flat =>
      rw [typeValue?_name] at values
      rw [Form.rename, Form.rename]
      cases holds : ty.isTypeid with
      | false => rfl
      | true =>
        rw [holds] at values
        simp only [if_true, values x (mem_singleton_self x)]
    | _ => rfl

end Node

theorem Ty.accepts_rename {f : String → String} (inj : Function.Injective f) (want : Ty) (n : Node) :
    (want.rename f).accepts (n.rename f) = want.accepts n := by
  have fits := compatible_rename inj want.resolved n.ty
  unfold accepts
  simp only [resolved_rename, isTypeid_rename, isPointer_rename, isPlaceholder_rename, isNumeric_rename, isAny_rename,
    Node.typeValue?_rename, Option.isSome_map, Node.ty_rename, isAbsent_rename, fits]
  congr 1
  cases n with
  | absent => rfl
  | node t ty form =>
    cases form with
    | string value =>
      cases want.resolved with
      | pointer elem =>
        have chars : (elem.rename f).same .char = elem.same .char := same_rename inj elem .char
        simp only [Node.rename, Form.rename, rename, chars]
      | absent | prim | array | named | placeholder | view => rfl
    | _ => rfl

namespace CallProblem

def rename (f : String → String) : CallProblem → CallProblem
  | wrongType callee position got want => wrongType callee position (got.rename f) (want.rename f)
  | e => e

/-- The problem without the types that it shows: its kind, the function and the position. -/
def outline : CallProblem → CallProblem
  | wrongType callee position _ _ => wrongType callee position .absent .absent
  | e => e

theorem outline_rename (f : String → String) (e : CallProblem) : (e.rename f).outline = e.outline := by
  cases e <;> rfl

end CallProblem

namespace Call

variable {declared : List String} {b b' : Bindings}

def renameResult (f : String → String) : Except CallProblem Bindings → Except CallProblem Bindings
  | .ok b => .ok (b.rename f)
  | .error e => .error (e.rename f)

/-- Renaming keeps names apart, and leaves those of the function that is called alone. -/
structure Renames (f : String → String) (own : List String) : Prop where
  inj : Function.Injective f
  fixed : ∀ x ∈ own, f x = x

namespace Renames

theorem find?_eq (h : Renames f own) (hx : x ∈ own) : (b.rename f).find? x = (b.find? x).map (Ty.rename f) := by
  have found := Bindings.find?_rename (b := b) h.inj x
  rwa [h.fixed x hx] at found

theorem subst_eq (h : Renames f own) (hty : ∀ x ∈ ty.placeholders, x ∈ own) :
    ty.subst (b.rename f) = (ty.subst b).rename f := by
  have same : ty.rename f = ty := by
    rw [Ty.rename_congr (g := id) ty fun x mem => h.fixed x (hty x mem), Ty.rename_id]
  rw [← Ty.subst_rename h.inj, same]

theorem contains_eq (h : Renames f own) (known : ∀ x ∈ declared, x ∈ own) (x : String) :
    declared.contains (f x) = declared.contains x := by
  rw [Bool.eq_iff_iff, contains_iff_mem, contains_iff_mem]
  constructor
  · intro mem
    have same : f x = x := h.inj (h.fixed _ (known _ mem))
    rwa [same] at mem
  · intro mem
    rwa [h.fixed x (known x mem)]

theorem missing?_eq (h : Renames f own) (hty : ∀ x ∈ ty.placeholders, x ∈ own) :
    missing? declared (b.rename f) ty = missing? declared b ty := by
  unfold missing?
  refine List.find?_congr fun x mem => ?_
  rw [h.find?_eq (hty x mem), Option.isNone_map]

end Renames

theorem checkArg_rename (h : Renames f own) (known : ∀ x ∈ declared, x ∈ own) (hp : ∀ x ∈ p.ty.placeholders, x ∈ own) :
    checkArg callee declared position p (arg.rename f) (b.rename f) =
      renameResult f (checkArg callee declared position p arg b) := by
  have want := h.subst_eq (b := b) hp
  have accepted (want : Ty) : (if (want.rename f).accepts (arg.rename f) = true then
        Except.ok (b.rename f) else .error (.wrongType callee position (arg.ty.rename f) (want.rename f))) =
      renameResult f (if want.accepts arg = true then .ok b else .error (.wrongType callee position arg.ty want)) := by
    rw [Ty.accepts_rename h.inj]
    split <;> rfl
  unfold checkArg
  simp only [Node.isAbsent_rename, Node.typeValue?_rename, Node.ty_rename, h.missing?_eq hp, want]
  cases takes : takesType p with
  | true =>
    simp only [if_true]
    cases arg.isAbsent with
    | true => rfl
    | false =>
      cases arg.typeValue? with
      | none => rfl
      | some bound =>
        have name : p.name ∈ own := hp p.name (by rw [takesType_iff.mp takes]; exact mem_singleton_self _)
        have renamed := Bindings.bind_rename (b := b) h.inj p.name bound
        rw [h.fixed _ name] at renamed
        exact congrArg Except.ok renamed
  | false =>
    simp only [Bool.false_eq_true, if_false]
    cases missing? declared b p.ty with
    | some name => rfl
    | none =>
      cases arg.isAbsent with
      | true => rfl
      | false =>
        simp only [Bool.false_eq_true, if_false]
        have fits := accepted (p.ty.subst b)
        generalize p.ty.subst b = want at fits ⊢
        cases want with
        | placeholder x =>
          simp only [Ty.rename, h.contains_eq known x] at fits ⊢
          split
          · exact fits
          · rw [Ty.resolved_rename, Bindings.bind_rename h.inj]
            rfl
        | absent | prim | pointer | array | named | view => exact fits

theorem checkArgs_rename (h : Renames f own) (known : ∀ x ∈ declared, x ∈ own) {params : List Param}
    (hparams : ∀ p ∈ params, ∀ x ∈ p.ty.placeholders, x ∈ own) (args : List Node) :
    checkArgs callee declared position (b.rename f) (params.zip (args.map (Node.rename f))) =
      renameResult f (checkArgs callee declared position b (params.zip args)) := by
  induction params generalizing args position b with
  | nil => rfl
  | cons p params ih =>
    cases args with
    | nil => rfl
    | cons arg args =>
      obtain ⟨hp, hparams⟩ := forall_mem_cons.mp hparams
      rw [map_cons, zip_cons_cons, zip_cons_cons, checkArgs, checkArgs, checkArg_rename h known hp]
      cases checkArg callee declared position p arg b with
      | error e => rfl
      | ok b' => exact ih hparams args

theorem mem_placeholders_of_typePlaceholders (h : x ∈ typePlaceholders sig.params) : x ∈ sig.placeholders := by
  obtain ⟨p, mem, takes, rfl⟩ := mem_typePlaceholders.mp h
  refine mem_flatMap.mpr ⟨p, mem, ?_⟩
  rw [takesType_iff.mp takes]
  exact mem_singleton_self _

theorem check_rename {functions : Table Signature} (known : functions.get? callee = some sig)
    (h : Renames f sig.placeholders) (args : List Node) :
    check functions callee (args.map (Node.rename f)) = renameResult f (check functions callee args) := by
  unfold check
  rw [known, length_map]
  dsimp only
  split
  · rfl
  · split
    · rfl
    · exact checkArgs_rename (b := []) h (fun x => mem_placeholders_of_typePlaceholders)
        (fun p mem x hx => mem_flatMap.mpr ⟨p, mem, hx⟩) args

/-- The placeholders that the arguments of a call bring along. -/
def openNames (args : List Node) : List String :=
  args.flatMap Node.openNames

theorem exists_renames {args : List Node} (injective : Set.InjOn f {x | x ∈ openNames args})
    (apart : ∀ x ∈ openNames args, x ∈ own ∨ f x ∈ own → f x = x) :
    ∃ g, Renames g own ∧ ∀ x ∈ openNames args, f x = g x := by
  let g (x : String) : String := if x ∈ own then x else f x
  have fixed : ∀ x ∈ own, g x = x := fun x mem => if_pos mem
  have agrees : ∀ x ∈ openNames args, g x = f x := by
    intro x mem
    by_cases here : x ∈ own
    · rw [fixed x here, apart x mem (.inl here)]
    · exact if_neg here
  -- A name from outside that is moved onto one of the function would have been there before.
  have meets : ∀ x ∈ own, ∀ y ∈ openNames args, x = g y → x = y := by
    intro x here y mem same
    rw [agrees y mem] at same
    rw [same, apart y mem (.inr (same ▸ here))]
  let S : Set String := {x | x ∈ own ++ openNames args}
  have inj : Set.InjOn g S := by
    intro x hx y hy same
    rcases mem_append.mp hx with hx | hx <;> rcases mem_append.mp hy with hy | hy
    · rwa [fixed x hx, fixed y hy] at same
    · exact meets x hx y hy (fixed x hx ▸ same)
    · exact (meets y hy x hx (fixed y hy ▸ same.symm)).symm
    · rw [agrees x hx, agrees y hy] at same
      exact injective hx hy same
  have small : Cardinal.mk S < Cardinal.mk String :=
    (Cardinal.lt_aleph0_iff_set_finite.mpr (finite_toSet _)).trans_le (Cardinal.aleph0_le_mk String)
  obtain ⟨e, extends'⟩ := Cardinal.extend_function_of_lt ⟨S.domRestrict g, inj.injective⟩ small ⟨Equiv.refl String⟩
  have same : ∀ x ∈ own ++ openNames args, e x = g x := fun x mem => extends' ⟨x, mem⟩
  refine ⟨e, ⟨e.injective, fun x mem => ?_⟩, fun x mem => ?_⟩
  · rw [same x (mem_append_left _ mem), fixed x mem]
  · rw [same x (mem_append_right _ mem), agrees x mem]

/-- Names that arguments bring along can be changed, as long as they stay different and none of them is moved onto a
placeholder of the function or off one: the same calls are accepted, with the renamed types for the placeholders of the
function, and the others are refused for the same reason at the same position. A call binds the placeholders of the
function, and besides them only open types that its arguments offer. -/
theorem check_hygienic (functions : Table Signature) (callee : String) (args : List Node) {f : String → String}
    (injective : Set.InjOn f {x | x ∈ openNames args}) (apart : ∀ sig, functions.get? callee = some sig →
      ∀ x ∈ openNames args, x ∈ sig.placeholders ∨ f x ∈ sig.placeholders → f x = x) :
    (∀ b, check functions callee args = .ok b → ∃ b' sig, functions.get? callee = some sig ∧
      check functions callee (args.map (Node.rename f)) = .ok b' ∧
      (∀ x ∈ sig.placeholders, b'.find? x = (b.find? x).map (Ty.rename f)) ∧
      ∀ x, (b.find? x).isSome = true → x ∈ sig.placeholders ∨ ∃ arg ∈ args, arg.Offers (.placeholder x)) ∧
    ∀ e, check functions callee args = .error e →
      ∃ e', check functions callee (args.map (Node.rename f)) = .error e' ∧ e'.outline = e.outline := by
  cases known : functions.get? callee with
  | none =>
    have unknown (args : List Node) : check functions callee args = .error (.unknownFunction callee) := by
      rw [check, known]
    simp only [unknown]
    refine ⟨fun b h => ?_, fun e h => ⟨_, rfl, ?_⟩⟩
    · cases h
    · cases h
      rfl
  | some sig =>
    obtain ⟨g, renames, agrees⟩ := exists_renames injective (apart sig known)
    have names : ∀ arg ∈ args, ∀ x ∈ arg.openNames, x ∈ openNames args :=
      fun arg mem x hx => mem_flatMap.mpr ⟨arg, mem, hx⟩
    have same : args.map (Node.rename f) = args.map (Node.rename g) :=
      map_congr_left fun arg mem => Node.rename_congr fun x hx => agrees x (names arg mem x hx)
    rw [same, check_rename known renames]
    refine ⟨fun b h => ?_, fun e h => ⟨e.rename g, ?_, e.outline_rename g⟩⟩
    · obtain ⟨bound, values⟩ := check_names known h
      rw [h]
      refine ⟨b.rename g, sig, rfl, rfl, fun x mem => ?_, bound⟩
      rw [renames.find?_eq mem]
      cases value : b.find? x with
      | none => rfl
      | some ty =>
        obtain ⟨arg, here, offers⟩ := values x ty value
        exact congrArg some (Ty.rename_congr ty fun y hy =>
          (agrees y (names arg here y (offers.mem_openNames hy))).symm)
    · rw [h]
      rfl

/-- A function that takes a type, a value of it, and another value whose type is inferred. -/
def forwarding : Signature where
  name := "f"
  generic := true
  params := [⟨"T", .placeholder "T"⟩, ⟨"y", .placeholder "T"⟩, ⟨"z", .placeholder "U"⟩]

/-- A type that is passed on under one name is passed on under another one, too. -/
theorem check_hygienic_forwarding :
    let functions : Table Signature := ({} : Table Signature).add "f" forwarding ""
    let args : List Node := [.node default .typeid (.name "A" false), .node default (.placeholder "A") (.name "y" false),
      .node default (.pointer (.placeholder "B")) (.name "z" false)]
    let f (x : String) : String := if x = "A" then "C" else x
    Set.InjOn f {x | x ∈ openNames args} ∧
      (∀ x ∈ openNames args, x ∈ forwarding.placeholders ∨ f x ∈ forwarding.placeholders → f x = x) ∧
      check functions "f" args =
        .ok [("T", .placeholder "A"), ("A", .placeholder "A"), ("U", .pointer (.placeholder "B"))] ∧
      ∃ b', check functions "f" (args.map (Node.rename f)) = .ok b' ∧ b'.find? "T" = some (.placeholder "C") ∧
        b'.find? "U" = some (.pointer (.placeholder "B")) := by
  intro functions args f
  have names : openNames args = ["A", "A", "B"] := rfl
  have injective : Set.InjOn f {x | x ∈ openNames args} := by
    rw [names]
    intro x hx y hy
    have all : ∀ x ∈ ["A", "A", "B"], ∀ y ∈ ["A", "A", "B"], f x = f y → x = y := by decide
    exact all x hx y hy
  have apart : ∀ x ∈ openNames args, x ∈ forwarding.placeholders ∨ f x ∈ forwarding.placeholders → f x = x := by
    rw [names]
    decide
  have known : functions.get? "f" = some forwarding := by rfl
  have checked : check functions "f" args =
      .ok [("T", .placeholder "A"), ("A", .placeholder "A"), ("U", .pointer (.placeholder "B"))] := by
    unfold functions args
    cbv
  obtain ⟨b', sig, found, renamed, bound, -⟩ := (check_hygienic functions "f" args injective fun sig found =>
    Option.some.inj (known.symm.trans found) ▸ apart).1 _ checked
  obtain rfl := Option.some.inj (known.symm.trans found)
  exact ⟨injective, apart, checked, b', renamed, bound "T" (by decide), bound "U" (by decide)⟩

/-- The name of a placeholder is captured: a call is refused because the type that it passes on is called like a
placeholder of the function, and with another name it is accepted, and binds that name as well. -/
theorem check_captures :
    let functions : Table Signature := ({} : Table Signature).add "f" forwarding ""
    let args : List Node := [.node default .typeid (.name "U" false), .node default .bool (.name "y" false),
      .node default .int (.name "z" false)]
    let f : String → String := Equiv.swap "U" "V"
    Function.Injective f ∧ check functions "f" args = .error (.wrongType "f" 3 .int .bool) ∧
      check functions "f" (args.map (Node.rename f)) =
        .ok [("T", .placeholder "V"), ("V", .bool), ("U", .int)] ∧ "V" ∉ forwarding.placeholders := by
  intro functions args f
  have renamed : args.map (Node.rename f) = [.node default .typeid (.name "V" false),
      .node default .bool (.name "y" false), .node default .int (.name "z" false)] := by
    have swapped : f "U" = "V" := Equiv.swap_apply_left "U" "V"
    simp [args, Node.rename, Form.rename, Ty.rename, Ty.typeid, Ty.bool, Ty.int, Ty.isTypeid, swapped]
  refine ⟨(Equiv.swap "U" "V").injective, ?_, ?_, by decide⟩
  · unfold functions args
    cbv
  · rw [renamed]
    unfold functions
    cbv

end Call

end Impulse
