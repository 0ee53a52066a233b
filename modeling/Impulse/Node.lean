import Impulse.Token
import Impulse.Ty

/-!
# Syntax trees

A node of a syntax tree is a token, a type and a form. The form says what the node is and holds its
children, which may be absent. Forms are generic in their children, so that everything computed from
a tree bottom-up is one instance of `Node.fold`.
-/

namespace Impulse

/-- A parameter of a function or a field of a struct. -/
structure Param where
  name : String
  ty : Ty
  deriving Inhabited

/-- What callers know of a function. `method` names the struct a method belongs to. -/
structure Signature where
  name : String
  ret : Ty := .absent
  params : List Param := []
  generic : Bool := false
  inlined : Bool := false
  shared : Bool := false
  variadic : Bool := false
  method : String := ""
  deriving Inhabited

inductive BranchKind
  | when
  | orWhen
  | otherwise
  deriving DecidableEq, Repr

/-- What happens to the counter of a loop after each round. -/
inductive Step
  | stay
  | up
  | down
  deriving DecidableEq, Repr

/-- The forms of nodes, with children in `α`. -/
inductive Form (α : Type)
  /-- A number: its text and, if it could not be computed, its arithmetic. -/
  | number (value : String) (expr : α)
  | char (value : String)
  | string (value : String)
  | bool (value : Bool)
  /-- A type used as a value. -/
  | typeName (ty : Ty)
  /-- A variable. `flat` marks a name inside a namespace. -/
  | name (name : String) (flat : Bool)
  | list (elems : List α)
  | index (base : α) (position : α)
  | deref (expr : α)
  | address (expr : α)
  | call (name : String) (args : List α)
  | binary (op : Char) (left : α) (right : α)
  /-- An operator or a parenthesis of a condition. -/
  | operator (kind : Token.Kind)
  /-- Code of the target language. -/
  | embed (code : String)
  | function (sig : Signature)
  | declare (name : String) (ty : Ty) (value : α) (const : Bool) (global : Bool) (flat : Bool)
  | assign (target : α) (value : α)
  /-- A branch with its condition and the name and type of its capture. -/
  | branch (kind : BranchKind) (cond : List α) (capture : String) (captureTy : Ty)
  | switch (value : α)
  | arm (values : List α) (fallthrough : Bool) (isDefault : Bool)
  /-- A bounded loop. `init` declares the counter if the condition introduced it. -/
  | loop (init : α) (counter : String) (cond : List α) (step : Step)
  | iterate (elem : String) (index : String) (elemTy : Ty) (subject : α)
  | structName (name : String)
  | structBody (name : String) (generics : List String) (fields : List Param)
  | structEnd (name : String)
  | enumName (name : String)
  | enumBody (name : String) (fields : List String)
  | enumEnd (name : String)
  /-- A header of the target language. -/
  | header (path : String)
  /-- An imported source file. -/
  | source (path : String)
  | result (value : α)
  | leave
  | again
  | blockStart
  | blockEnd

namespace Form

def map {α β : Type} (f : α → β) : Form α → Form β
  | number value expr => number value (f expr)
  | char value => char value
  | string value => string value
  | bool value => bool value
  | typeName ty => typeName ty
  | name x flat => name x flat
  | list elems => list (elems.map f)
  | index base position => index (f base) (f position)
  | deref expr => deref (f expr)
  | address expr => address (f expr)
  | call x args => call x (args.map f)
  | binary op left right => binary op (f left) (f right)
  | operator kind => operator kind
  | embed code => embed code
  | function sig => function sig
  | declare x ty value const global flat => declare x ty (f value) const global flat
  | assign target value => assign (f target) (f value)
  | branch kind cond capture captureTy => branch kind (cond.map f) capture captureTy
  | switch value => switch (f value)
  | arm values fallthrough isDefault => arm (values.map f) fallthrough isDefault
  | loop init counter cond step => loop (f init) counter (cond.map f) step
  | iterate elem i elemTy subject => iterate elem i elemTy (f subject)
  | structName x => structName x
  | structBody x generics fields => structBody x generics fields
  | structEnd x => structEnd x
  | enumName x => enumName x
  | enumBody x fields => enumBody x fields
  | enumEnd x => enumEnd x
  | header path => header path
  | source path => source path
  | result value => result (f value)
  | leave => leave
  | again => again
  | blockStart => blockStart
  | blockEnd => blockEnd

def children {α : Type} : Form α → List α
  | number _ expr => [expr]
  | list elems => elems
  | index base position => [base, position]
  | deref expr => [expr]
  | address expr => [expr]
  | call _ args => args
  | binary _ left right => [left, right]
  | declare _ _ value _ _ _ => [value]
  | assign target value => [target, value]
  | branch _ cond _ _ => cond
  | switch value => [value]
  | arm values _ _ => values
  | loop init _ cond _ => init :: cond
  | iterate _ _ _ subject => [subject]
  | result value => [value]
  | _ => []

def kindName {α : Type} : Form α → String
  | number _ _ => "IntLit"
  | char _ => "CharLit"
  | string _ => "StrLit"
  | bool _ => "BoolLit"
  | typeName _ => "TypeIDLit"
  | name _ _ => "VarRef"
  | list _ => "ArrayLit"
  | index _ _ => "ArrayIndex"
  | deref _ => "Deref"
  | address _ => "AddressOf"
  | call _ _ => "FuncCall"
  | binary _ _ _ => "BinaryOp"
  | operator _ => "CondOp"
  | embed _ => "CEmbed"
  | function sig => if sig.generic then "MacroFuncDef" else "FuncDef"
  | declare _ _ _ _ _ _ => "VarDecl"
  | assign _ _ => "Reassign"
  | branch .when _ _ _ => "If"
  | branch .orWhen _ _ _ => "OrIf"
  | branch .otherwise _ _ _ => "Else"
  | switch _ => "Switch"
  | arm _ _ _ => "Case"
  | loop _ _ _ _ => "Loop"
  | iterate _ _ _ _ => "Iter"
  | structName _ => "StructName"
  | structBody _ [] _ => "StructDef"
  | structBody _ (_ :: _) _ => "GenericStructDef"
  | structEnd _ => "EndStruct"
  | enumName _ => "EnumName"
  | enumBody _ _ => "EnumDef"
  | enumEnd _ => "EndEnum"
  | header _ => "CImport"
  | source _ => "Import"
  | result _ => "Return"
  | leave => "Break"
  | again => "Continue"
  | blockStart => "BlockStart"
  | blockEnd => "EndBlock"

end Form

/-- Syntax trees. `absent` is an empty place. -/
inductive Node
  | absent
  | node (token : Token) (ty : Ty) (form : Form Node)
  deriving Inhabited

namespace Node

mutual

/-- Evaluates a tree bottom-up: `empty` for an empty place, and `step` for a node whose children are
already evaluated. -/
def fold {β : Type} (empty : β) (step : Token → Ty → Form β → β) : Node → β
  | absent => empty
  | node token ty form => step token ty (foldForm empty step form)

def foldForm {β : Type} (empty : β) (step : Token → Ty → Form β → β) : Form Node → Form β
  | .number value expr => .number value (fold empty step expr)
  | .char value => .char value
  | .string value => .string value
  | .bool value => .bool value
  | .typeName ty => .typeName ty
  | .name x flat => .name x flat
  | .list elems => .list (foldAll empty step elems)
  | .index base position => .index (fold empty step base) (fold empty step position)
  | .deref expr => .deref (fold empty step expr)
  | .address expr => .address (fold empty step expr)
  | .call x args => .call x (foldAll empty step args)
  | .binary op left right => .binary op (fold empty step left) (fold empty step right)
  | .operator kind => .operator kind
  | .embed code => .embed code
  | .function sig => .function sig
  | .declare x ty value const global flat =>
    .declare x ty (fold empty step value) const global flat
  | .assign target value => .assign (fold empty step target) (fold empty step value)
  | .branch kind cond capture captureTy =>
    .branch kind (foldAll empty step cond) capture captureTy
  | .switch value => .switch (fold empty step value)
  | .arm values fallthrough isDefault => .arm (foldAll empty step values) fallthrough isDefault
  | .loop init counter cond loopStep =>
    .loop (fold empty step init) counter (foldAll empty step cond) loopStep
  | .iterate elem i elemTy source => .iterate elem i elemTy (fold empty step source)
  | .structName x => .structName x
  | .structBody x generics fields => .structBody x generics fields
  | .structEnd x => .structEnd x
  | .enumName x => .enumName x
  | .enumBody x fields => .enumBody x fields
  | .enumEnd x => .enumEnd x
  | .header path => .header path
  | .source path => .source path
  | .result value => .result (fold empty step value)
  | .leave => .leave
  | .again => .again
  | .blockStart => .blockStart
  | .blockEnd => .blockEnd

def foldAll {β : Type} (empty : β) (step : Token → Ty → Form β → β) : List Node → List β
  | [] => []
  | n :: ns => fold empty step n :: foldAll empty step ns

end

theorem foldAll_eq_map {β : Type} (empty : β) (step : Token → Ty → Form β → β) (ns : List Node) :
    foldAll empty step ns = ns.map (fold empty step) := by
  induction ns with
  | nil => rfl
  | cons n ns ih => simp [foldAll, ih]

theorem foldForm_eq_map {β : Type} (empty : β) (step : Token → Ty → Form β → β) (form : Form Node) :
    foldForm empty step form = form.map (fold empty step) := by
  cases form <;> simp [foldForm, Form.map, foldAll_eq_map]

@[simp]
theorem fold_absent {β : Type} (empty : β) (step : Token → Ty → Form β → β) :
    fold empty step absent = empty := by
  simp [fold]

/-- A node evaluates to the step on its evaluated children. -/
@[simp]
theorem fold_node {β : Type} (empty : β) (step : Token → Ty → Form β → β) (token : Token) (ty : Ty)
    (form : Form Node) :
    fold empty step (node token ty form) = step token ty (form.map (fold empty step)) := by
  simp [fold, foldForm_eq_map]

def isAbsent : Node → Bool
  | absent => true
  | node _ _ _ => false

def token : Node → Token
  | absent => default
  | node token _ _ => token

def ty : Node → Ty
  | absent => .absent
  | node _ ty _ => ty

def children : Node → List Node
  | absent => []
  | node _ _ form => form.children.filter fun n => !n.isAbsent

/-- The tree together with all its nodes, parents first. -/
def walkStep (token : Token) (ty : Ty) (form : Form (Node × List Node)) : Node × List Node :=
  let self := node token ty (form.map (·.1))
  (self, self :: form.children.flatMap (·.2))

/-- All nodes of a tree, parents before their children. -/
def walk (n : Node) : List Node :=
  (n.fold (absent, []) walkStep).2

def kindName : Node → String
  | absent => ""
  | node _ _ form => form.kindName

def isNumber : Node → Bool
  | node _ _ (.number _ _) => true
  | _ => false

/-- Whether the node names a place that can be written: a variable, a dereference or an index. -/
def isPlace : Node → Bool
  | node _ _ (.name _ _) => true
  | node _ _ (.deref _) => true
  | node _ _ (.index _ _) => true
  | _ => false

/-- The variable a write to the node goes to, looking through indexing. A write through a pointer goes
to no variable. -/
def rootName? : Node → Option String
  | node _ _ (.name x _) => some x
  | node _ _ (.index base _) => base.rootName?
  | _ => none

def numeral (token : Token) (value : String) (ty : Ty) : Node :=
  node token ty (.number value .absent)

def charLit (token : Token) (value : String) : Node :=
  node token .char (.char value)

def stringLit (token : Token) (value : String) : Node :=
  node token .string (.string value)

def boolLit (token : Token) (value : Bool) : Node :=
  node token .bool (.bool value)

def typeLit (token : Token) (ty : Ty) : Node :=
  node token .typeid (.typeName ty)

def addressOf (token : Token) (expr : Node) : Node :=
  node token (.pointer expr.ty) (.address expr)

def embedded (token : Token) (code : String) : Node :=
  node token .any (.embed code)

def functionOf (token : Token) (sig : Signature) : Node :=
  node token sig.ret (.function sig)

def declaration (token : Token) (name : String) (ty : Ty) (value : Node)
    (const global flat : Bool) : Node :=
  node token ty (.declare name ty value const global flat)

def assignment (token : Token) (target value : Node) : Node :=
  node token target.ty (.assign target value)

def returned (token : Token) (value : Node) : Node :=
  node token (if value.isAbsent then .void else value.ty) (.result value)

def plain (token : Token) (form : Form Node) : Node :=
  node token .absent form

end Node

end Impulse
