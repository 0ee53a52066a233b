import Impulse.Call
import Impulse.Context.Fields
import Impulse.Library
import Impulse.Token.Lexer

/-!
# Problems of programs

Everything that can be wrong with a program, as causes with their wording. A `Problem` ends the reading
of a program. A `Mismatch` of types ends it too if types are strict, and is a warning otherwise. A
`Caution` is always only a warning. A `Fault` is no property of a program: it marks a state that reading
must never reach.
-/

namespace Impulse

/-- Where a token stands that does not belong there. -/
inductive Region
  | typeExpr
  | expression
  | literal
  /-- The bracket group with the given text. -/
  | group (text : String)
  | afterExpression (text : String)
  | functionHeader
  | structHeader
  | enumHeader
  | afterCondition
  | afterSwitchValue
  | afterCaseValues
  | afterLoopCondition
  | afterIteratorHeader
  | afterWord (word : String)
  | beforeBlock

def Region.text : Region → String
  | typeExpr => "in type"
  | expression => "in expression"
  | literal => "in literal"
  | group text => "in literal '[" ++ text ++ "]'"
  | afterExpression text => "after expression '" ++ text ++ "'"
  | functionHeader => "in function header"
  | structHeader => "in struct header"
  | enumHeader => "in enum header"
  | afterCondition => "after condition"
  | afterSwitchValue => "after switch value"
  | afterCaseValues => "after case values"
  | afterLoopCondition => "after loop condition"
  | afterIteratorHeader => "after iterator header"
  | afterWord word => "after '" ++ word ++ "'"
  | beforeBlock => "before '\x7b'"

inductive Mismatch
  | call (problem : CallProblem)
  | element (position : Nat) (got want : Ty)
  | caseValue (value : String) (got want : Ty)
  | initializer (value : String) (got : Ty) (name : String) (want : Ty)
  | assignment (value : String) (got : Ty) (target : String) (want : Ty)
  | result (value : String) (got : Ty) (function : String) (want : Ty)
  | superfluousResult (function : String)
  | missingResult (function : String) (want : Ty)

def Mismatch.message : Mismatch → String
  | call e => e.message
  | element position got want =>
    "Array element " ++ toString position ++ " has type '" ++ got.text ++ "', want '" ++ want.text
      ++ "'"
  | caseValue value got want =>
    "Case value '" ++ value ++ "' of type '" ++ got.text ++ "' does not match switch type '"
      ++ want.text ++ "'"
  | initializer value got name want =>
    "Cannot use '" ++ value ++ "' (type '" ++ got.text ++ "') as the value of '" ++ name
      ++ "' (type '" ++ want.text ++ "')"
  | assignment value got target want =>
    "Cannot assign '" ++ value ++ "' (type '" ++ got.text ++ "') to '" ++ target ++ "' (type '"
      ++ want.text ++ "')"
  | result value got function want =>
    "Cannot return '" ++ value ++ "' (type '" ++ got.text ++ "') from '" ++ function ++ "' (returns '"
      ++ want.text ++ "')"
  | superfluousResult function => "Function '" ++ function ++ "' returns no value"
  | missingResult function want =>
    "Function '" ++ function ++ "' must return a value of type '" ++ want.text ++ "'"

inductive Caution
  | mismatch (m : Mismatch)
  | overflow (value : Int) (bits : Nat)
  | hidesOuter (name : String)
  | imported (path : String)
  | noEffect (statement : String)

def Caution.message : Caution → String
  | mismatch m => m.message
  | overflow value bits =>
    "Literal value " ++ toString value ++ " overflows a " ++ toString bits ++ "-bit word"
  | hidesOuter name => "Declaration of '" ++ name ++ "' shadows an outer declaration"
  | imported path => "'" ++ path ++ "' is already imported"
  | noEffect statement => "Statement '" ++ statement ++ "' has no effect"

def Caution.warning : Caution → Warning
  | mismatch _ => .type
  | overflow _ _ => .overflow
  | hidesOuter _ => .shadow
  | imported _ => .reimport
  | noEffect _ => .extra

/-- What is wrong with a type expression. -/
inductive TypeProblem
  | noType (found : String)
  | unresolvedPlaceholder (name : String)
  | argumentCount (name : String) (want got : Nat)
  | unknownName (name : String)
  | emptyArguments
  | unknownLength (name : String)
  | lengthNotConstant (name : String)

def TypeProblem.message : TypeProblem → String
  | noType found => "Can't convert '" ++ found ++ "' to a type"
  | unresolvedPlaceholder name => "Unresolved generic '$" ++ name ++ "'"
  | argumentCount name want got =>
    "Struct '" ++ name ++ "' takes " ++ toString want ++ " generic argument(s), got " ++ toString got
  | unknownName name => "Unknown identifier '" ++ name ++ "': can't convert to a type"
  | emptyArguments => "Empty generic argument list"
  | unknownLength name => "Unknown identifier '" ++ name ++ "' in array length"
  | lengthNotConstant name => "Array length '" ++ name ++ "' must be an integer constant"

/-- What is wrong with a bracket group. -/
inductive LiteralProblem
  | empty
  | emptyElement (position : Nat)
  | malformedNumber (text : String)
  | unexpectedCharacter (c : Char)
  | incomplete
  | expected (sign : String)
  | unknownName (name : String)
  | notNumeric (group value : String) (ty : Ty)
  | operandNotNumeric (operand : String) (op : Char) (ty : Ty)
  | divisionByZero

def LiteralProblem.message : LiteralProblem → String
  | empty => "Empty '[]' literal"
  | emptyElement position => "Empty element " ++ toString position ++ " in array literal"
  | malformedNumber text => "Malformed number '" ++ text ++ "' in literal"
  | unexpectedCharacter c => "Unexpected character '" ++ c.toString ++ "' in literal"
  | incomplete => "Incomplete literal"
  | expected sign => "Expected '" ++ sign ++ "' in literal"
  | unknownName name => "Unknown identifier '" ++ name ++ "' in literal"
  | notNumeric group value ty =>
    "Literal '[" ++ group ++ "]' is not numeric: '" ++ value ++ "' has type '" ++ ty.text ++ "'"
  | operandNotNumeric operand op ty =>
    "Operand '" ++ operand ++ "' of '" ++ op.toString ++ "' is not numeric (type '" ++ ty.text ++ "')"
  | divisionByZero => "Division by zero in literal"

/-- What is wrong with an expression or a condition. -/
inductive ExprProblem
  | noAddress (value : String)
  | noPointer (value : String) (ty : Ty)
  | noIndex (value : String) (ty : Ty)
  | indexNotNumeric (index : String)
  | notAValue (directive : String)
  | unknownName (name : String)
  | emptyArgument (position : Nat) (callee : String)
  | methodCallsOff (method : String)
  | undefinedFunction (name : String)
  | emptyCondition
  | incompleteCondition (operator : String)

def ExprProblem.message : ExprProblem → String
  | noAddress value => "Cannot take the address of '" ++ value ++ "'"
  | noPointer value ty =>
    "Cannot dereference '" ++ value ++ "' of non-pointer type '" ++ ty.text ++ "'"
  | noIndex value ty => "Cannot index '" ++ value ++ "' of type '" ++ ty.text ++ "'"
  | indexNotNumeric index => "Index '" ++ index ++ "' is not numeric"
  | notAValue directive => "'@" ++ directive ++ "' cannot be used as a value"
  | unknownName name => "Unknown identifier '" ++ name ++ "'"
  | emptyArgument position callee =>
    "Empty argument " ++ toString position ++ " in call to '" ++ callee ++ "'"
  | methodCallsOff method =>
    "Method call syntax is disabled; call '" ++ method ++ "' directly (-Fmethod-calls)"
  | undefinedFunction name => "Call to undefined function '" ++ name ++ "'"
  | emptyCondition => "Empty condition"
  | incompleteCondition operator =>
    "Incomplete condition: nothing after '" ++ operator ++ "'"

/-- What is wrong with a definition or a declaration. -/
inductive DefinitionProblem
  | notAName (found : String)
  | typeKeyword (name : String)
  | alreadyDefined (name origin : String)
  | nestedFunction
  | functionName (name : String)
  | functionInEnum (enum : String)
  | functionNotAtTop
  | duplicateParameter (name : String)
  | emptyParameter
  | parameterNotTypeid (name : String)
  | voidParameter (name : String)
  | structInFunction
  | nestedStruct
  | structName (name : String)
  | emptyPlaceholders
  | placeholderSign
  | enumInFunction
  | nestedEnum
  | enumName (name : String)
  | enumField
  | duplicateEnumField (name enum : String)
  | fieldAfterMethods (struct : String)
  | structField
  | fieldName (name : String)
  | duplicateField (name struct : String)
  | voidField (name : String)
  | dottedName (name : String)
  | constantWithoutValue (name : String)
  | voidVariable (name : String)
  | tooManyElements (given size : Int)
  | constantRedeclared (name : String)
  | nameTaken (name origin : String)
  | redeclared (name : String)
  | fields (problem : FieldProblem)

def DefinitionProblem.message : DefinitionProblem → String
  | notAName found => "Expected a name, found '" ++ found ++ "'"
  | typeKeyword name => "Invalid name: '" ++ name ++ "' is a type keyword"
  | alreadyDefined name origin => "'" ++ name ++ "' already defined in " ++ origin
  | nestedFunction => "Nested function definitions are not allowed"
  | functionName name => "Invalid function name '" ++ name ++ "'"
  | functionInEnum enum => "Functions cannot be defined inside enum '" ++ enum ++ "'"
  | functionNotAtTop => "Function definitions are only allowed at the top level"
  | duplicateParameter name => "Duplicate parameter '" ++ name ++ "'"
  | emptyParameter => "Empty parameter in parameter list"
  | parameterNotTypeid name => "Generic parameter '$" ++ name ++ "' must have type 'typeid'"
  | voidParameter name => "Parameter '" ++ name ++ "' cannot have type 'void'"
  | structInFunction => "Struct definitions are not allowed inside a function"
  | nestedStruct => "Nested struct definitions are not allowed"
  | structName name => "Invalid struct name '" ++ name ++ "'"
  | emptyPlaceholders => "Empty generic parameter list"
  | placeholderSign => "Struct generics are written '$Name'"
  | enumInFunction => "Enum definitions are not allowed inside a function"
  | nestedEnum => "Enum definitions cannot be nested"
  | enumName name => "Invalid enum name '" ++ name ++ "'"
  | enumField => "Enum fields are single names"
  | duplicateEnumField name enum => "Duplicate field '" ++ name ++ "' in enum '" ++ enum ++ "'"
  | fieldAfterMethods struct => "Fields of struct '" ++ struct ++ "' must come before its methods"
  | structField => "Struct fields are declared as 'name: type'"
  | fieldName name => "Invalid field name '" ++ name ++ "'"
  | duplicateField name struct => "Duplicate field '" ++ name ++ "' in struct '" ++ struct ++ "'"
  | voidField name => "Field '" ++ name ++ "' cannot have type 'void'"
  | dottedName name => "Invalid name '" ++ name ++ "': declarations cannot contain '.'"
  | constantWithoutValue name => "Constant '" ++ name ++ "' declared without a value"
  | voidVariable name => "Cannot declare '" ++ name ++ "' of type 'void'"
  | tooManyElements given size =>
    "Too many elements: " ++ toString given ++ " given for an array of " ++ toString size
  | constantRedeclared name => "Cannot redeclare constant '" ++ name ++ "'"
  | nameTaken name origin => "Cannot declare '" ++ name ++ "': already defined in " ++ origin
  | redeclared name => "'" ++ name ++ "' redeclared in this block"
  | fields e => e.message

/-- What is wrong with a block or a statement. -/
inductive BlockProblem
  | missingSemicolon
  | unfinished
  | unclosed (count : Nat) (kind : String)
  | nestedInEnum (enum : String)
  | onlyCasesInSwitch
  | noBranchBefore (word : String)
  | noHeader (found : String)
  | notInRecord (word kind record : String)
  | onlyInFunction (word : String)
  | blockOutsideFunction
  | captureCondition
  | captureNoOption (value : String) (ty : Ty)
  | captureNoValue (name : String)
  | outsideSwitch (word : String)
  | defaultWithValues
  | noCaseValues (word : String)
  | loopStep (found : String)
  | emptyLoopCondition
  | loopCounter
  | sameIterationNames (name : String)
  | notIterable (value : String) (ty : Ty)
  | nestedDefer
  | statementInSwitch
  | notAssignable (target : String)
  | constantAssigned (name : String)
  | resultOutsideFunction
  | resultInDefer
  | outsideLoop (word : String)

/-- The wording of a problem with a block or a statement. -/
def BlockProblem.message : BlockProblem → String
  | missingSemicolon => "Expected ';' before '\x7d'"
  | unfinished => "Unexpected end of file: expected ';' or '\x7b'"
  | unclosed count kind =>
    "Unexpected end of file: " ++ toString count ++ " unclosed block(s), innermost is this " ++ kind
  | nestedInEnum enum => "Nothing may be nested inside enum '" ++ enum ++ "'"
  | onlyCasesInSwitch =>
    "Only 'case', 'fallthrough' and 'default' blocks may appear inside a switch"
  | noBranchBefore word => "'" ++ word ++ "' must directly follow an 'if' or 'orif' block"
  | noHeader found => "Expected a block header before '\x7b', found '" ++ found ++ "'"
  | notInRecord word kind record =>
    "'" ++ word ++ "' is not allowed inside " ++ kind ++ " '" ++ record ++ "'"
  | onlyInFunction word => "'" ++ word ++ "' is only allowed inside a function"
  | blockOutsideFunction => "Unexpected block outside of a function"
  | captureCondition => "A capture needs a condition that is a single Option variable"
  | captureNoOption value ty =>
    "Cannot capture from '" ++ value ++ "' of type '" ++ ty.text ++ "': not an Option"
  | captureNoValue name => "'" ++ name ++ "' has no field 'value'"
  | outsideSwitch word => "'" ++ word ++ "' outside of a switch"
  | defaultWithValues => "'default' takes no values"
  | noCaseValues word => "'" ++ word ++ "' needs at least one value"
  | loopStep found => "Loop modifier must be '+', '-' or '_', found '" ++ found ++ "'"
  | emptyLoopCondition => "Empty loop condition"
  | loopCounter =>
    "A loop with a '+' or '-' modifier must start its condition with a numeric variable"
  | sameIterationNames name => "Index and element cannot both be named '" ++ name ++ "'"
  | notIterable value ty =>
    "Cannot iterate over '" ++ value ++ "' of type '" ++ ty.text ++ "'"
  | nestedDefer => "Nested defer blocks are not allowed"
  | statementInSwitch => "Statements inside a switch must be in a 'case' or 'default' block"
  | notAssignable target => "Cannot assign to '" ++ target ++ "'"
  | constantAssigned name => "Cannot assign to constant '" ++ name ++ "'"
  | resultOutsideFunction => "'return' outside of a function"
  | resultInDefer => "'return' is not allowed inside a defer block"
  | outsideLoop word => "'" ++ word ++ "' outside of a loop"

inductive DirectiveProblem
  | unknown (name : String)
  | beforeFunction (name : String)
  | notBeforeFunction (name : String)
  | oneString (name : String)
  | importNotAtTop
  | noFile (path : String) (problem : LoadProblem)
  | duplicate (d : Duplicate)

def DirectiveProblem.message : DirectiveProblem → String
  | unknown name => "Unknown macro '@" ++ name ++ "'"
  | beforeFunction name => "'@" ++ name ++ "' must precede a function definition"
  | notBeforeFunction name => "'@" ++ name ++ "' cannot precede a function definition"
  | oneString name => "'@" ++ name ++ "' takes exactly one string argument"
  | importNotAtTop => "'@import' is only allowed at the top level"
  | noFile path e => "Cannot import '" ++ path ++ "': " ++ e.message
  | duplicate d => d.message

/-- Everything that ends the reading of a program. -/
inductive Problem
  | lexical (e : LexProblem)
  | expected (what : String)
  | unexpected (found : String) (region : Region)
  | unmatched (sign : String)
  | type (e : TypeProblem)
  | literal (e : LiteralProblem)
  | expr (e : ExprProblem)
  | definition (e : DefinitionProblem)
  | block (e : BlockProblem)
  | directive (e : DirectiveProblem)
  | mismatch (m : Mismatch)

def Problem.message : Problem → String
  | lexical e => e.message
  | expected what => "Expected " ++ what
  | unexpected found region => "Unexpected '" ++ found ++ "' " ++ region.text
  | unmatched sign => "Unmatched '" ++ sign ++ "'"
  | type e => e.message
  | literal e => e.message
  | expr e => e.message
  | definition e => e.message
  | block e => e.message
  | directive e => e.message
  | mismatch m => m.message

/-- States that reading must never reach. -/
inductive Fault
  /-- The global frame was to be closed. -/
  | globalFrame
  /-- A struct or enum block was closed while no record was open. -/
  | noRecord
  /-- A part of a text was not smaller than the whole. -/
  | notSmaller
  /-- Imports nest deeper than there are files. -/
  | endlessImports
  deriving DecidableEq, Repr

/-- Why the reading of a program ended early. -/
inductive Stop
  | problem (token : Token) (p : Problem)
  | fault (f : Fault)

end Impulse
