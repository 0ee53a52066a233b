import Impulse.Node
import Impulse.Text.Quoted

/-!
# The text of a tree

Every node is written on one line. Absent children are written as nothing at all, except that an
absent value of a declaration or a return leaves its sign out too.
-/

namespace Impulse

def Param.listText (ps : List Param) : String :=
  ", ".intercalate (ps.map fun p => p.name ++ ": " ++ p.ty.text)

/-- How an operator of a condition is written. Tokens that are none are not written. -/
def Token.Kind.operatorText : Token.Kind → String
  | .equals => "="
  | .less => "<"
  | .greater => ">"
  | .bang => "!"
  | .kwAnd => "and"
  | .kwOr => "or"
  | .lparen => "("
  | .rparen => ")"
  | _ => ""

def Step.text : Step → String
  | stay => "_"
  | up => "+"
  | down => "-"

namespace Form

/-- The texts `ps` of some children, `sep` between them. -/
def join (sep : String) (ps : List (Option String)) : String :=
  sep.intercalate (ps.map (·.getD ""))

/-- The text of a form, given the texts of the children that are present. -/
def text (form : Form (Option String)) : String :=
  match form with
  | number value _ => value
  | char value => "'" ++ value ++ "'"
  | string value => Text.quote value
  | bool value => if value then "true" else "false"
  | typeName ty => ty.text
  | name x _ => x
  | list elems => "[" ++ join ", " elems ++ "]"
  | index base position => base.getD "" ++ "|" ++ position.getD "" ++ "|"
  | deref expr => expr.getD "" ++ "^"
  | address expr => "&" ++ expr.getD ""
  | call x args => x ++ "(" ++ join ", " args ++ ")"
  | binary op left right => "(" ++ left.getD "" ++ " " ++ op.toString ++ " " ++ right.getD "" ++ ")"
  | operator kind => kind.operatorText
  | embed code => "@c " ++ Text.quote code
  | function sig =>
    (if sig.inlined then "@inline " else "") ++ (if sig.shared then "@shared " else "")
      ++ form.kindName ++ " " ++ sig.name ++ "(" ++ Param.listText sig.params ++ "): " ++ sig.ret.text
  | declare x ty value const _ _ =>
    (if const then "ConstDecl " else "VarDecl ") ++ x ++ ": " ++ ty.text
      ++ (match value with
        | none => ""
        | some v => " = " ++ v)
  | assign target value => "Reassign " ++ target.getD "" ++ " = " ++ value.getD ""
  | branch kind cond capture captureTy =>
    form.kindName
      ++ (if kind = .otherwise then "" else " (" ++ join " " cond ++ ")")
      ++ (if capture = "" then "" else " |" ++ capture ++ ": " ++ captureTy.text ++ "|")
  | switch value => "Switch (" ++ value.getD "" ++ ")"
  | arm values fallthrough isDefault =>
    if isDefault then "Default"
    else if fallthrough then "Fallthrough (" ++ join ", " values ++ ")"
    else "Case (" ++ join ", " values ++ ")"
  | loop init _ cond step =>
    "Loop (" ++ join " " cond ++ ") [" ++ step.text ++ "]"
      ++ (match init with
        | none => ""
        | some d => " init " ++ d)
  | iterate elem i elemTy subject =>
    "Iter " ++ elem ++ ": " ++ elemTy.text ++ (if i = "" then "" else ", " ++ i ++ ": usize")
      ++ " in " ++ subject.getD ""
  | structName x => "StructName " ++ x
  | structBody x generics fields =>
    form.kindName ++ " " ++ x
      ++ (if generics = [] then "" else "($" ++ " $".intercalate generics ++ ")")
      ++ " \x7b" ++ Param.listText fields ++ "\x7d"
  | structEnd x => "EndStruct " ++ x
  | enumName x => "EnumName " ++ x
  | enumBody x fields => "EnumDef " ++ x ++ " \x7b" ++ ", ".intercalate fields ++ "\x7d"
  | enumEnd x => "EndEnum " ++ x
  | header path => "CImport " ++ path
  | source path => "Import " ++ path
  | result value =>
    match value with
    | none => "Return"
    | some v => "Return " ++ v
  | leave => "Break"
  | again => "Continue"
  | blockStart => "BlockStart"
  | blockEnd => "EndBlock"

/-- Whether the types a form shows are complete, given the same of its children. -/
def isPrintable (form : Form Bool) : Bool :=
  let shown (ty : Ty) : Bool := ty.isAbsent || ty.isComplete
  match form with
  | number _ _ => true
  | typeName ty => shown ty
  | function sig => sig.params.all (shown ·.ty) && shown sig.ret
  | declare _ ty value _ _ _ => shown ty && value
  | branch kind cond capture captureTy =>
    (kind = .otherwise || cond.all id) && (capture = "" || shown captureTy)
  | arm values _ isDefault => isDefault || values.all id
  | iterate _ _ elemTy subject => shown elemTy && subject
  | structBody _ _ fields => fields.all (shown ·.ty)
  | other => other.children.all id

end Form

namespace Node

def text? (n : Node) : Option String :=
  n.fold none fun _ _ form => some form.text

def text (n : Node) : String :=
  n.text?.getD ""

/-- Whether every type that the text of the tree shows is complete. -/
def isPrintable (n : Node) : Bool :=
  n.fold true fun _ _ form => form.isPrintable

end Node

end Impulse
