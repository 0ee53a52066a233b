import Impulse.Context.Fields
import Impulse.Proofs.Lookup

/-!
# The field variables of a variable

The variables that come along with a variable of a struct type do not depend on the scope they are declared
in. They are listed here without one, and declaring the fields of a variable is the same as declaring that
list.
-/

namespace Impulse

variable {c : Context}

theorem Table.has_iff {t : Table α} : t.has name = true ↔ ∃ item, t.get? name = some item := by
  rw [has_eq_isSome, get?, ← Option.isSome_iff_exists, Option.isSome_map]

namespace Scope

def declareUntil (s : Scope) : List Variable → Scope × Option FieldProblem
  | [] => (s, none)
  | x :: xs => (s.declare? x).elim (s, some (.redeclared x.name)) fun declared => declared.2.declareUntil xs

theorem declareUntil_append (s : Scope) (xs ys : List Variable) :
    s.declareUntil (xs ++ ys) = (s.declareUntil xs).2.elim ((s.declareUntil xs).1.declareUntil ys)
      fun e => ((s.declareUntil xs).1, some e) := by
  induction xs generalizing s with
  | nil => rfl
  | cons x xs ih =>
    rw [List.cons_append, declareUntil, declareUntil]
    cases s.declare? x with
    | none => rfl
    | some declared => exact ih declared.2

theorem declareUntil_eq_none {s s' : Scope} :
    s.declareUntil xs = (s', none) ↔ s.declareList? xs = some s' := by
  induction xs generalizing s with
  | nil => simp [declareUntil, declareList?]
  | cons x xs ih =>
    rw [declareUntil, declareList?]
    cases s.declare? x with
    | none => simp
    | some declared => exact ih

end Scope

namespace Context

mutual

/-- The field variables of a variable called `base` whose value is, or points to, the struct `name`. -/
def structFields (c : Context) (path : List String) (base : String) (pointer const : Bool)
    (name : String) (args : List Ty) : List Variable :=
  if c.enums.has name then []
  else match _h : c.structs.get? name with
    | none => []
    | some d =>
      eachField c (name :: path) (base ++ if pointer then "->" else ".") const (d.bindings args)
        d.fields
termination_by c.fieldSteps (name :: path) (c.fieldCount name + 1)
decreasing_by
  simp [fieldSteps, fieldCount, _h]

/-- A variable `stem ++ field` for each field, followed by the variables of the struct it leads to. -/
def eachField (c : Context) (path : List String) (stem : String) (const : Bool) (b : Bindings)
    (fields : List Param) : List Variable :=
  match fields with
  | [] => []
  | f :: fs =>
    let x : Variable := { name := stem ++ f.name, ty := f.ty.subst b, const := const }
    let inner :=
      match x.ty.structTarget? with
      | none => []
      | some (pointer, name, args) =>
        if _h : c.structs.has name = true ∧ path.contains name = false then
          structFields c path x.name pointer const name args
        else []
    x :: inner ++ eachField c path stem const b fs
termination_by c.fieldSteps path fields.length
decreasing_by
  · exact fieldSteps_cons_lt c _h.1 _h.2 _
  · simp [fieldSteps]

end

def fieldsOf (c : Context) (x : Variable) : List Variable :=
  match x.ty.structTarget? with
  | none => []
  | some (pointer, name, args) =>
    if c.structs.has name then structFields c [] x.name pointer x.const name args else []

/-- The variables that are declared with a variable: itself and its field variables. -/
def introduced (c : Context) (x : Variable) : List Variable :=
  x :: c.fieldsOf x

section

theorem structFields_of_enum (isEnum : c.enums.has name = true) :
    c.structFields path base pointer const name args = [] := by
  rw [structFields, if_pos isEnum]

theorem structFields_of_struct (noEnum : ¬c.enums.has name = true) (known : c.structs.get? name = some d) :
    c.structFields path base pointer const name args
      = c.eachField (name :: path) (base ++ if pointer then "->" else ".") const (d.bindings args) d.fields := by
  rw [structFields, if_neg noEnum]
  generalize base ++ (if pointer = true then "->" else ".") = stem
  split
  · next unknown =>
    rw [known] at unknown
    cases unknown
  · next d' known' =>
    rw [known] at known'
    cases known'
    rfl

theorem declareStruct_eq_none (h : c.declareStruct path base pointer const name args scope = (scope', none)) :
    c.enums.has name = true ∧ scope' = scope ∨ ¬c.enums.has name = true ∧ ∃ d, c.structs.get? name = some d ∧
        c.declareAll (name :: path) (base ++ if pointer then "->" else ".") const (d.bindings args)
          d.fields scope = (scope', none) := by
  rw [declareStruct] at h
  split at h
  · next isEnum =>
    cases h
    exact .inl ⟨isEnum, rfl⟩
  · next noEnum =>
    split at h
    · cases h
    · next d known => exact .inr ⟨noEnum, d, known, h⟩

end

mutual

theorem declareStruct_eq (c : Context) (path : List String) (base : String) (pointer const : Bool) (name : String)
    (args : List Ty) (scope : Scope) (registered : c.structs.has name = true) :
    c.declareStruct path base pointer const name args scope
      = scope.declareUntil (c.structFields path base pointer const name args) := by
  by_cases isEnum : c.enums.has name = true
  · rw [structFields_of_enum isEnum, declareStruct, if_pos isEnum]
    rfl
  · obtain ⟨d, known⟩ := Table.has_iff.mp registered
    rw [structFields_of_struct isEnum known, declareStruct, if_neg isEnum]
    have all := declareAll_eq c (name :: path) (base ++ if pointer then "->" else ".") const (d.bindings args)
      d.fields scope
    split
    · next unknown => cases known.symm.trans unknown
    · next d' known' =>
      cases known.symm.trans known'
      exact all
termination_by c.fieldSteps (name :: path) (c.fieldCount name + 1)
decreasing_by
  simp [fieldSteps, fieldCount, *]

theorem declareAll_eq (c : Context) (path : List String) (stem : String) (const : Bool) (b : Bindings)
    (fields : List Param) (scope : Scope) :
    c.declareAll path stem const b fields scope = scope.declareUntil (c.eachField path stem const b fields) := by
  cases fields with
  | nil =>
    rw [declareAll, eachField]
    rfl
  | cons f fs =>
    have later := fun scope => declareAll_eq c path stem const b fs scope
    rw [declareAll, eachField]
    dsimp only
    rw [List.cons_append, Scope.declareUntil]
    cases scope.declare? { name := stem ++ f.name, ty := f.ty.subst b, const := const } with
    | none => rfl
    | some declared =>
      dsimp only [Option.elim_some]
      rw [Scope.declareUntil_append]
      cases target : (f.ty.subst b).structTarget? with
      | none => exact later declared.2
      | some found =>
        obtain ⟨pointer, name, args⟩ := found
        dsimp only
        by_cases opens : c.structs.has name = true ∧ path.contains name = false
        · rw [dif_pos opens, dif_pos opens,
            declareStruct_eq c path (stem ++ f.name) pointer const name args declared.2 opens.1]
          generalize declared.2.declareUntil _ = result
          obtain ⟨scope', problem⟩ := result
          cases problem with
          | none => exact later scope'
          | some e => rfl
        · rw [dif_neg opens, dif_neg opens]
          exact later declared.2
termination_by c.fieldSteps path fields.length
decreasing_by
  · exact Nat.lt_succ_self _
  · exact fieldSteps_cons_lt c opens.1 opens.2 _

end

theorem declareList?_of_declareFields {scope scope' : Scope} {base : String}
    (h : c.declareFields scope base pointer const name args = (scope', none)) :
    scope.declareList? (c.structFields [] base pointer const name args) = some scope' := by
  rcases declareStruct_eq_none h with ⟨isEnum, rfl⟩ | ⟨-, d, known, -⟩
  · rw [structFields_of_enum isEnum]
    rfl
  · have registered := Table.has_iff.mpr ⟨d, known⟩
    exact Scope.declareUntil_eq_none.mp ((declareStruct_eq c _ _ _ _ _ _ _ registered).symm.trans h)

/-- What a field variable is: a field of the struct that a variable of the given name and type holds or
points to, or a field of another field variable. -/
inductive Field (c : Context) (const : Bool) : String → Ty → Variable → Prop
  | direct {base : String} {ty : Ty} {pointer : Bool} {name : String} {args : List Ty} {d : StructDef}
      {f : Param} (target : ty.structTarget? = some (pointer, name, args))
      (known : c.structs.get? name = some d) (mem : f ∈ d.fields) :
      Field c const base ty
        { name := base ++ (if pointer then "->" else ".") ++ f.name
          ty := f.ty.subst (d.bindings args)
          const := const }
  | deeper {base : String} {ty : Ty} {x y : Variable} (outer : Field c const base ty x)
      (inner : Field c const x.name x.ty y) : Field c const base ty y

mutual

theorem field_of_mem_structFields (c : Context) (path : List String) (base : String) (pointer const : Bool)
    (name : String) (args : List Ty) (target : ty.structTarget? = some (pointer, name, args))
    (h : y ∈ c.structFields path base pointer const name args) : c.Field const base ty y := by
  rw [structFields] at h
  split at h
  · cases h
  · split at h
    · cases h
    · next d known =>
      refine field_of_mem_eachField c (name :: path) _ const _ d.fields ?_ h
      intro f hf
      exact .direct target known hf
termination_by c.fieldSteps (name :: path) (c.fieldCount name + 1)
decreasing_by
  simp [fieldSteps, fieldCount, *]

theorem field_of_mem_eachField (c : Context) (path : List String) (stem : String) (const : Bool) (b : Bindings)
    (fields : List Param)
    (direct : ∀ f ∈ fields, c.Field const base ty { name := stem ++ f.name, ty := f.ty.subst b, const := const })
    {y : Variable} (h : y ∈ c.eachField path stem const b fields) : c.Field const base ty y := by
  match fields with
  | [] =>
    rw [eachField] at h
    cases h
  | f :: fs =>
    rw [eachField] at h
    have own := direct f (.head _)
    rcases List.mem_append.mp h with front | back
    · rcases List.mem_cons.mp front with rfl | inner
      · exact own
      · split at inner
        · cases inner
        · next pointer name args target =>
          split at inner
          · exact own.deeper (field_of_mem_structFields c path _ pointer const name args target inner)
          · cases inner
    · exact field_of_mem_eachField c path stem const b fs (fun f hf => direct f (.tail _ hf)) back
termination_by c.fieldSteps path fields.length
decreasing_by
  · exact fieldSteps_cons_lt c ‹_ ∧ _›.1 ‹_ ∧ _›.2 _
  · exact Nat.lt_succ_self _

end

theorem field_of_mem_fieldsOf (h : y ∈ c.fieldsOf x) : c.Field x.const x.name x.ty y := by
  unfold fieldsOf at h
  split at h
  · cases h
  · next pointer name args target =>
    split at h
    · exact field_of_mem_structFields c [] x.name pointer x.const name args target h
    · cases h

theorem isPointer_of_structTarget? {ty : Ty}
    (h : ty.structTarget? = some (pointer, name, args)) : ty.isPointer = pointer := by
  unfold Ty.structTarget? at h
  split at h
  · cases h
    rfl
  · cases h
    rfl
  · cases h

theorem Field.name_eq (h : c.Field const base ty y) :
    ∃ rest, y.name = base ++ (if ty.isPointer then "->" else ".") ++ rest := by
  induction h with
  | direct target known mem =>
    rw [isPointer_of_structTarget? target]
    exact ⟨_, rfl⟩
  | deeper outer inner ihOuter ihInner =>
    -- The name of the inner variable goes on behind that of the outer one.
    obtain ⟨front, hfront⟩ := ihOuter
    obtain ⟨back, hback⟩ := ihInner
    rw [hback, hfront, String.append_assoc, String.append_assoc]
    exact ⟨_, rfl⟩

end Context

end Impulse
