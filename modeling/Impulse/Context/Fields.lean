import Impulse.Context

/-!
# Field variables

A variable that holds a struct, or points to one, brings a variable for each field it leads to: `p.x`
for a value and `q->x` for a pointer, and so on through the structs its fields hold or point to. A struct
that is being unfolded is not unfolded again inside itself, so structs that refer to themselves come to
an end.
-/

namespace Impulse

/-- Why field variables cannot be declared. -/
inductive FieldProblem
  /-- The base is neither a struct nor an enum. -/
  | unknownStruct (base : String)
  /-- The frame has a variable of this name already. -/
  | redeclared (name : String)

def FieldProblem.base : FieldProblem → String
  | unknownStruct base => base
  | redeclared name => name

def FieldProblem.message : FieldProblem → String
  | unknownStruct base => base ++ ": unexpected expression during field propagation"
  | redeclared name => name ++ ": redeclared in this block"

/-- The struct or enum a value holds or, behind one pointer, points to: whether through a pointer, its
name and its generic arguments. -/
def Ty.structTarget? : Ty → Option (Bool × String × List Ty)
  | named name args => some (false, name, args)
  | pointer (named name args) => some (true, name, args)
  | _ => none

namespace Context

def unopened (c : Context) (path : List String) : Nat :=
  (c.structs.names.filter (!path.contains ·)).length

theorem unopened_cons_lt (c : Context) {path : List String} {name : String}
    (known : c.structs.has name = true) (fresh : path.contains name = false) :
    c.unopened (name :: path) < c.unopened path := by
  have member : name ∈ c.structs.names := by
    simp only [Table.has, List.any_eq_true, beq_iff_eq] at known
    obtain ⟨e, he, rfl⟩ := known
    exact List.mem_map_of_mem he
  have split : c.structs.names.filter (!(name :: path).contains ·)
      = (c.structs.names.filter (!path.contains ·)).filter (· != name) := by
    rw [List.filter_filter]
    refine List.filter_congr fun x _ => ?_
    simp [Bool.not_or, bne, Bool.beq_eq_decide_eq]
  unfold unopened
  rw [split]
  refine List.length_filter_lt_length_iff_exists.mpr ⟨name, ?_, by simp⟩
  simp [List.mem_filter, member] at fresh ⊢
  exact fresh

def fieldCount (c : Context) (name : String) : Nat :=
  match c.structs.get? name with
  | none => 0
  | some d => d.fields.length

def allFields (c : Context) : Nat :=
  (c.structs.entries.map (·.item.fields)).flatten.length

theorem fieldCount_le_allFields (c : Context) (name : String) : c.fieldCount name ≤ c.allFields := by
  unfold fieldCount Table.get? allFields
  cases found : c.structs.find? name with
  | none => exact Nat.zero_le _
  | some e =>
    have member := List.mem_map_of_mem (f := fun e => e.item.fields) (List.mem_of_find?_eq_some found)
    exact (List.sublist_flatten_of_mem member).length_le

/-- Bounds how many steps are left when some fields are to be declared inside of the structs in `path`. -/
def fieldSteps (c : Context) (path : List String) (fields : Nat) : Nat :=
  c.unopened path * (c.allFields + 2) + fields

/-- Unfolding one more struct leaves fewer steps, however many fields it has. -/
theorem fieldSteps_cons_lt (c : Context) {path : List String} {name : String}
    (known : c.structs.has name = true) (fresh : path.contains name = false) (fields : Nat) :
    c.fieldSteps (name :: path) (c.fieldCount name + 1) < c.fieldSteps path fields := by
  have fewer := unopened_cons_lt c known fresh
  have few := c.fieldCount_le_allFields name
  have whole : (c.unopened (name :: path) + 1) * (c.allFields + 2)
      ≤ c.unopened path * (c.allFields + 2) := Nat.mul_le_mul_right _ fewer
  rw [Nat.succ_mul] at whole
  unfold fieldSteps
  omega

mutual

/-- Declares the field variables of a variable called `base` whose value is, or points to, the struct
`name`. The structs in `path` are being unfolded. Enums have no fields. What is declared before a
problem stays. -/
def declareStruct (c : Context) (path : List String) (base : String) (pointer const : Bool)
    (name : String) (args : List Ty) (scope : Scope) : Scope × Option FieldProblem :=
  if c.enums.has name then (scope, none)
  else match _h : c.structs.get? name with
    | none => (scope, some (.unknownStruct base))
    | some d =>
      declareAll c (name :: path) (base ++ if pointer then "->" else ".") const (d.bindings args)
        d.fields scope
termination_by c.fieldSteps (name :: path) (c.fieldCount name + 1)
decreasing_by
  simp [fieldSteps, fieldCount, _h]

/-- Declares a variable `stem ++ field` for each field, and the variables of the structs they lead to. -/
def declareAll (c : Context) (path : List String) (stem : String) (const : Bool) (b : Bindings)
    (fields : List Param) (scope : Scope) : Scope × Option FieldProblem :=
  match fields with
  | [] => (scope, none)
  | f :: fs =>
    let name := stem ++ f.name
    let ty := f.ty.subst b
    match scope.declare? { name := name, ty := ty, const := const } with
    | none => (scope, some (.redeclared name))
    | some (_, scope) =>
      let (scope, problem) :=
        match ty.structTarget? with
        | none => (scope, none)
        | some (pointer, inner, args) =>
          if _h : c.structs.has inner = true ∧ path.contains inner = false then
            declareStruct c path name pointer const inner args scope
          else (scope, none)
      match problem with
      | some e => (scope, some e)
      | none => declareAll c path stem const b fs scope
termination_by c.fieldSteps path fields.length
decreasing_by
  · exact fieldSteps_cons_lt c _h.1 _h.2 _
  · simp [fieldSteps]

end

/-- Declares the field variables of a variable called `base` whose value is, or points to, the struct
`name`. -/
def declareFields (c : Context) (scope : Scope) (base : String) (pointer const : Bool)
    (name : String) (args : List Ty) : Scope × Option FieldProblem :=
  c.declareStruct [] base pointer const name args scope

end Context

end Impulse
