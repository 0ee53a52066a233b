import Impulse.Context
import Impulse.Ty.Compatible

/-!
# Checking calls

Whether a value may be passed where a type is expected, and whether the arguments of a call fit the
parameters of the function. A call of a generic function binds its placeholders: a parameter `$T: typeid`
binds `T` to the type it is given, and a placeholder without such a parameter is bound by the first
argument that meets it bare.
-/

namespace Impulse

/-- The type a value stands for when it is used as a type. Inside a generic function a variable of type
`typeid` stands for the placeholder of its name. -/
def Node.typeValue? : Node → Option Ty
  | node _ _ (.typeName ty) => some ty
  | node _ (.prim .typeid) (.name x _) => some (.placeholder x)
  | _ => none

/-- Whether the value may be passed or assigned where `want` is expected. Embedded code fits
everywhere, a string also makes a pointer to characters, and a number also makes a pointer. -/
def Ty.accepts (want : Ty) (value : Node) : Bool :=
  let want := want.resolved
  if want.isTypeid then value.typeValue?.isSome || want.compatible value.ty
  else
    let fits := !value.ty.isAbsent && want.compatible value.ty
    match value with
    | .node _ _ (.embed _) => true
    | .node _ _ (.string _) =>
      match want with
      | pointer elem => elem.same .char || fits
      | _ => fits
    | .node _ _ (.number _ _) => want.isPointer || want.isPlaceholder || want.isNumeric || want.isAny
    | _ => fits

/-- Why the arguments of a call do not fit. Positions count from one. -/
inductive CallProblem
  | unknownFunction (callee : String)
  | argumentCount (callee : String) (got want : Nat)
  | wrongType (callee : String) (position : Nat) (got want : Ty)
  | unboundPlaceholder (callee : String) (position : Nat) (name : String)
  /-- There is no argument at the position. -/
  | absentArgument (position : Nat)

def CallProblem.message : CallProblem → String
  | unknownFunction callee => "call to undefined function '" ++ callee ++ "'"
  | argumentCount callee got want =>
    "wrong number of arguments to '" ++ callee ++ "': got " ++ toString got ++ ", want "
      ++ toString want
  | wrongType callee position got want =>
    "argument " ++ toString position ++ " of '" ++ callee ++ "' has type '" ++ got.text
      ++ "', want '" ++ want.text ++ "'"
  | unboundPlaceholder callee position name =>
    "argument " ++ toString position ++ " of '" ++ callee ++ "' uses generic '$" ++ name
      ++ "' before it is bound"
  | absentArgument position => "argument " ++ toString position ++ " is missing"

namespace Call

/-- Whether a parameter takes a type: `$T: typeid`, which is named like its placeholder. -/
def takesType (p : Param) : Bool :=
  match p.ty with
  | .placeholder name => p.name == name
  | _ => false

/-- The placeholders bound by parameters that take a type. -/
def typePlaceholders (params : List Param) : List String :=
  (params.filter takesType).map (·.name)

/-- The first placeholder of a parameter type that a parameter binds, but has not bound yet. -/
def missing? (declared : List String) (b : Bindings) (ty : Ty) : Option String :=
  ty.placeholders.find? fun name => name != "" && declared.contains name && (b.find? name).isNone

/-- Checks one argument and adds the binding it establishes. -/
def checkArg (callee : String) (declared : List String) (position : Nat) (p : Param) (arg : Node)
    (b : Bindings) : Except CallProblem Bindings :=
  if takesType p then
    if arg.isAbsent then .error (.absentArgument position)
    else match arg.typeValue? with
      | some bound => .ok (b.bind p.name bound)
      | none => .error (.wrongType callee position arg.ty .typeid)
  else match missing? declared b p.ty with
    | some name => .error (.unboundPlaceholder callee position name)
    | none =>
      let want := p.ty.subst b
      let accepted : Except CallProblem Bindings :=
        if want.accepts arg then .ok b else .error (.wrongType callee position arg.ty want)
      if arg.isAbsent then .error (.absentArgument position)
      else match want with
        | .placeholder name =>
          if declared.contains name then accepted else .ok (b.bind name arg.ty.resolved)
        | _ => accepted

def checkArgs (callee : String) (declared : List String) (position : Nat) (b : Bindings) :
    List (Param × Node) → Except CallProblem Bindings
  | [] => .ok b
  | (p, arg) :: rest =>
    match checkArg callee declared position p arg b with
    | .error e => .error e
    | .ok b => checkArgs callee declared (position + 1) b rest

/-- The bindings a call of `callee` with the given arguments establishes. A variadic function takes
anything and binds nothing. -/
def check (functions : Table Signature) (callee : String) (args : List Node) :
    Except CallProblem Bindings :=
  match functions.get? callee with
  | none => .error (.unknownFunction callee)
  | some sig =>
    if sig.variadic then .ok []
    else if args.length ≠ sig.params.length then
      .error (.argumentCount callee args.length sig.params.length)
    else checkArgs callee (typePlaceholders sig.params) 1 [] (sig.params.zip args)

end Call

end Impulse
