import Impulse.Arith.Reduce
import Impulse.TypeExpr

/-!
# Expressions

An expression is a value with postfix operators, an address, or a type used as a value. Literals take the
type that is wanted, if one is. The elements of a list in brackets are expressions of their own: their text
is cut into tokens that all stand at the place of the literal.

## Design notes

Smaller expressions are read by a parameter, so that no function here is recursive but the last, which
ties the knot: it reads an expression by reading smaller ones, where `Token.weight` measures size.
-/

namespace Impulse

/-- The size of a token as a part of an expression. A list in brackets counts with its text. -/
def Token.weight (t : Token) : Nat :=
  if t.kind = .number ∧ Text.contains t.value ',' then t.value.length + 1 else 1

def Token.totalWeight : List Token → Nat
  | [] => 0
  | t :: toks => t.weight + totalWeight toks

namespace Infer

/-- Puts a character in front of the first of some parts. -/
def consChar (c : Char) : List (List Char) → List (List Char)
  | [] => [[c]]
  | part :: parts => (c :: part) :: parts

/-- The parts of a text between commas that stand outside of quotes and brackets of all kinds. -/
def splitElements (depth : Int) (quote : Option Char) : List Char → List (List Char)
  | [] => [[]]
  | c :: cs =>
    match quote with
    | some q =>
      if c = '\\' then
        match cs with
        | [] => [[c]]
        | d :: cs => consChar c (consChar d (splitElements depth quote cs))
      else consChar c (splitElements depth (if c = q then none else quote) cs)
    | none =>
      if c = '"' || c = '\'' then consChar c (splitElements depth (some c) cs)
      else if c = '(' || c = '[' then consChar c (splitElements (depth + 1) none cs)
      else if c = ')' || c = ']' then consChar c (splitElements (depth - 1) none cs)
      else if c = ',' ∧ depth = 0 then [] :: splitElements depth none cs
      else consChar c (splitElements depth none cs)

/-- The elements of a list. A comma behind the last one is allowed. -/
def elementTexts (raw : String) : List String :=
  let parts := (splitElements 0 none raw.toList).map fun cs => Text.trim (String.ofList cs)
  if parts.length > 1 && parts.getLast? == some "" then parts.dropLast else parts

/-- The tokens of a text that stands inside the literal `t`. They stand at its place. -/
def innerTokens (t : Token) (text : String) : Infer (List Token) := do
  let found := tokenize ((← read).settings.feature .comments) t.file text
  match found.failure with
  | some (place, e) => fail place (.lexical e)
  | none =>
    return (found.tokens.filter fun u => !u.isTrivia && u.kind != .endOfFile).map fun u =>
      { u with line := t.line, column := t.column, length := t.length }

def startsArithmetic (text : String) : Bool :=
  match text.toList with
  | c :: _ => c == '-' || c == '(' || Text.isAsciiDigit c
  | [] => false

/-- How a smaller expression is read: from its tokens and the type that is wanted. -/
abbrev Sub := List Token → Ty → Infer Node

def element (sub : Sub) (t : Token) (want : Ty) (position : Nat) (text : String) : Infer Node := do
  if startsArithmetic text then arithmetic t text want
  else
    let toks ← innerTokens t text
    if toks.isEmpty then fail t (.literal (.emptyElement position))
    else sub toks want

def elements (sub : Sub) (t : Token) (want : Ty) (position : Nat) : List String → Infer (List Node)
  | [] => pure []
  | text :: texts => do
    let n ← element sub t want position text
    let ns ← elements sub t want (position + 1) texts
    return n :: ns

def checkElements (t : Token) (want : Ty) (position : Nat) : List Node → Infer Unit
  | [] => pure ()
  | n :: ns => do
    if !want.accepts n then mismatch t (.element position n.ty want)
    checkElements t want (position + 1) ns

/-- A list in brackets. Its elements have the type that is wanted, or else that of the first one. -/
def listLiteral (sub : Sub) (t : Token) (texts : List String) (want : Ty) : Infer Node := do
  let elemWant := want.resolved.element?.getD .absent
  let nodes ← elements sub t elemWant 1 texts
  let elemTy :=
    if elemWant.isAbsent || elemWant.hasPlaceholder then (nodes.headD .absent).ty else elemWant
  checkElements t elemTy 1 nodes
  return .node t (.array elemTy (toString nodes.length)) (.list nodes)

/-- A number, arithmetic in brackets, or a list in brackets. -/
def literal (sub : Sub) (t : Token) (want : Ty) : Infer Node := do
  let raw := Text.trim t.value
  if raw = "" then fail t (.literal .empty)
  else if (splitElements 0 none raw.toList).length ≤ 1 then arithmetic t raw want
  else listLiteral sub t (elementTexts raw) want

/-- The arguments of a call from a position on. Each is wanted to have the type of its parameter. -/
def arguments (sub : Sub) (t : Token) (name : String) (position : Nat) (params : List Param) :
    List (List Token) → Infer (List Node)
  | [] => pure []
  | toks :: parts => do
    if toks.isEmpty then fail t (.expr (.emptyArgument position name))
    else
      let n ← sub toks ((params.head?.map (·.ty)).getD .absent)
      let ns ← arguments sub t name (position + 1) params.tail parts
      return n :: ns

/-- A call of the function `t` names, with the tokens between its parentheses. -/
def callExpr (sub : Sub) (t : Token) (inner : List Token) : Infer Node := do
  let (name, callee) ← callee t
  let params := callee.sig.params.drop callee.receiver.toList.length
  let args ← arguments sub t name 1 params (Token.splitTop .comma inner)
  call t name callee.sig (callee.receiver.toList ++ args)

def nameExpr (final t : Token) (rest : List Token) : Infer (Node × List Token) := do
  let v ← read
  match v.find? t.value with
  | some x => return (.node t x.ty (.name x.name x.flat), rest)
  | none =>
    if v.isTypeName t.value then
      let (ty, rest) ← ofExcept (TypeExpr.read v false final (t :: rest))
      return (.typeLit t ty, rest)
    else fail t (.expr (.unknownName t.value))

/-- A value without postfix operators, and the tokens behind it. -/
def primary (sub : Sub) (final : Token) (want : Ty) : List Token → Infer (Node × List Token)
  | [] => fail final (.unexpected final.text .expression)
  | t :: rest =>
    match t.kind with
    | .number => do return (← literal sub t want, rest)
    | .string => return (.stringLit t t.value, rest)
    | .char => return (.charLit t t.value, rest)
    | .kwTrue => return (.boolLit t true, rest)
    | .kwFalse => return (.boolLit t false, rest)
    | .atSign => do
      let (name, rest) ← ofExcept (expect final .ident (.expected "a macro name after '@'") rest)
      if name.value ≠ "c" then fail name (.expr (.notAValue name.value))
      else
        let (code, rest) ← ofExcept (expect final .string (.directive (.oneString "c")) rest)
        return (.embedded t code.value, rest)
    | .ident =>
      match rest with
      | opened :: after =>
        if opened.kind = .lparen then do
          let (inner, rest) ← ofExcept (closing opened after)
          return (← callExpr sub t inner, rest)
        else nameExpr final t rest
      | [] => nameExpr final t rest
    | _ => fail t (.unexpected t.text .expression)

def postfixes (sub : Sub) (n : Node) (toks : List Token) : Infer (Node × List Token) :=
  match toks with
  | [] => pure (n, [])
  | t :: rest =>
    if t.kind = .caret then do
      let n ← deref t n
      postfixes sub n rest
    else if t.kind = .pipe then
      match _h : Token.untilBar 0 rest with
      | none => fail t (.unmatched "|")
      | some (inner, after) => do
        let i ← sub inner .usize
        let n ← index t n i
        postfixes sub n after
    else pure (n, toks)
termination_by toks.length
decreasing_by
  · simp
  · have := Token.untilBar_length _h
    simp only [List.length_cons]
    omega

def postfixed (sub : Sub) (final : Token) (want : Ty) (toks : List Token) :
    Infer (Node × List Token) := do
  let (n, rest) ← primary sub final want toks
  postfixes sub n rest

/-- An address, a type, or a value with its postfix operators. -/
def unary (sub : Sub) (final : Token) (want : Ty) (toks : List Token) :
    Infer (Node × List Token) := do
  match toks with
  | [] => postfixed sub final want toks
  | t :: rest =>
    if t.kind = .ampersand then
      let (operand, rest) ← postfixed sub final .absent rest
      if !operand.isPlace then fail t (.expr (.noAddress operand.text))
      else return (.addressOf t operand, rest)
    else if t.kind = .caret || t.kind = .dollar then
      let (ty, rest) ← ofExcept (TypeExpr.read (← read) false final toks)
      return (.typeLit t ty, rest)
    else postfixed sub final want toks

/-- The node of an expression, given how smaller expressions are read. -/
def step (sub : Sub) (toks : List Token) (want : Ty) : Infer Node := do
  let last := (← read).last
  if toks.isEmpty then fail last (.expected "an expression")
  else
    let (n, rest) ← unary sub (toks.getLastD last) want toks
    ofExcept (nothingMore (.afterExpression n.text) rest)
    return n

def expression (toks : List Token) (want : Ty) : Infer Node :=
  let sub : Sub := fun inner want =>
    if _h : Token.totalWeight inner < Token.totalWeight toks then expression inner want
    else fault .notSmaller
  step sub toks want
termination_by Token.totalWeight toks

end Infer

end Impulse
