import Impulse.Reading.State

/-!
# Declarations of variables

A variable that is declared outside of functions is global; any other one belongs to the top frame. A
variable that holds a struct, or points to one, brings the variables of its fields along.
-/

namespace Impulse.Parse

/-- Declares the variables of the fields that `x` leads to, in the given scope. -/
def declareFieldsOf (t : Token) (c : Context) (scope : Scope) (x : Variable) : Parse Scope :=
  match x.ty.structTarget? with
  | none => pure scope
  | some (pointer, name, args) =>
    if !c.structs.has name then pure scope
    else match c.declareFields scope x.name pointer x.const name args with
      | (scope, none) => pure scope
      | (_, some e) => fail t (.definition (.fields e))

def declareGlobal (t : Token) (x : Variable) : Parse Unit := do
  let s ← get
  match s.context.globals.origin? x.name with
  | some origin => fail t (.definition (.alreadyDefined x.name origin))
  | none =>
    let own := ((Scope.empty.declare? x).map (·.2)).getD Scope.empty
    let scope ← declareFieldsOf t s.context own x
    modify fun s =>
      { s with context := { s.context with
          globals := scope.top.declared.foldl (fun t y => t.add y.name y s.file) s.context.globals } }

/-- Declares a variable of the top frame and its fields. -/
def declareLocal (t : Token) (x : Variable) : Parse Unit := do
  let s ← get
  match s.scope.declare? x with
  | none => fail t (.definition (.redeclared x.name))
  | some (hides, scope) =>
    if hides then warn t (.hidesOuter x.name)
    let scope ← declareFieldsOf t s.context scope x
    modify fun s => { s with scope := scope }

/-- Declares a variable. Constants and the names of functions, structs and enums cannot be taken. -/
def declare (t : Token) (x : Variable) : Parse Unit := do
  let s ← get
  match s.context.resolve? s.scope x.name with
  | some y => if y.const then fail t (.definition (.constantRedeclared x.name))
  | none => pure ()
  match s.context.definedIn? x.name with
  | some origin => fail t (.definition (.nameTaken x.name origin))
  | none =>
    if s.function.isNone && s.depth = 0 then declareGlobal t x else declareLocal t x

/-- The length of an array that is left open comes from the list it is given. A list may not be longer
than its array. -/
def inferLength (t : Token) (ty : Ty) (value : Node) : Parse Ty :=
  match ty, value with
  | .array elem length, .node _ _ (.list elems) =>
    if length = "" then pure (.array elem (toString elems.length))
    else match Text.size? length with
      | some size =>
        if size < elems.length then
          fail t (.definition (.tooManyElements elems.length size))
        else pure ty
      | none => pure ty
  | _, _ => pure ty

def constantText (const : Bool) (value : Node) : String :=
  match const, value with
  | true, .node _ _ (.number text .absent) => text
  | _, _ => ""

/-- The value of a declared variable, checked against its type. The type may get its length from it. -/
def initialValue (t : Token) (name : String) (ty : Ty) (toks : List Token) : Parse (Ty × Node) := do
  let value ← expression toks ty
  let ty ← inferLength t ty value
  if !ty.accepts value then
    mismatch (toks.headD t) (.initializer value.text value.ty name ty)
  return (ty, value)

/-- The tokens of the type and of the value of a declaration. -/
def declarationParts (t : Token) (const : Bool) (toks : List Token) :
    Parse (List Token × Option (List Token)) :=
  match Token.cutTop? .equals toks with
  | some (_, eq, []) => fail eq (.expected "a value after '='")
  | some (typeToks, _, valueToks) => pure (typeToks, some valueToks)
  | none =>
    if const then fail t (.definition (.constantWithoutValue t.value)) else pure (toks, none)

/-- A declaration of the variable that the token `t` names. `sign` is the colon behind it. -/
def variableDeclaration (const : Bool) (t sign : Token) (toks : List Token) : Parse Unit := do
  let name ← newName t
  if Text.contains name '.' then fail t (.definition (.dottedName name))
  let (typeToks, valueToks) ← declarationParts t const toks
  if typeToks.isEmpty then fail sign (.expected ("a type for '" ++ name ++ "'"))
  let ty ← typeOf false typeToks
  if ty.isVoid then fail t (.definition (.voidVariable name))
  let (ty, value) ←
    match valueToks with
    | none => pure (ty, Node.absent)
    | some toks => initialValue t name ty toks
  let global := (← get).function.isNone
  declare t { name := name, ty := ty, const := const, value := constantText const value }
  emit (.declaration t name ty value const global false)

end Impulse.Parse
