import Impulse.Problem
import Impulse.Text.Decimal

/-!
# Arithmetic in bracket groups

A bracket group holds arithmetic: sums, products, unary minus, the postfix operators `^` and `| … |`, calls
and parentheses over numbers and names. Its text is cut into signs, numbers and names, and these are read
into a tree. Reading never fails: a place where it cannot go on is kept in the tree, so that what stands
before that place is still evaluated first.
-/

namespace Impulse

/-- Trees of arithmetic. `closed` tells whether the sign that ends a part was found. -/
inductive Arith
  | number (text : String)
  | name (text : String)
  | call (name : String) (args : List Arith) (closed : Bool)
  | negate (operand : Arith)
  | binary (op : Char) (left right : Arith)
  | deref (operand : Arith)
  | index (base position : Arith) (closed : Bool)
  | paren (inner : Arith) (closed : Bool)
  /-- Reading could not go on here. -/
  | broken (p : Problem)
  /-- Reading came to a state that is never reached. -/
  | stuck

namespace Arith

inductive Lexeme
  | number (text : String)
  | name (text : String)
  | sign (c : Char)
  deriving DecidableEq, Repr

def Lexeme.text : Lexeme → String
  | number text => text
  | name text => text
  | sign c => c.toString

def isSign (c : Char) : Bool :=
  ['+', '-', '*', '/', '%', '(', ')', '|', '^', ','].contains c

def isNumberPart (c : Char) : Bool :=
  Text.isDigit c || c == '.'

def isNamePart (c : Char) : Bool :=
  Text.isLetter c || Text.isDigit c || c == '_' || c == '.'

/-- The number that begins with the digit `c`. It may not run into a letter, and it has at most one
point. -/
def scanNumber (c : Char) (cs : List Char) : Except LiteralProblem String :=
  let digits := c :: cs.takeWhile isNumberPart
  let text := String.ofList digits
  match cs.dropWhile isNumberPart with
  | next :: _ =>
    if Text.isLetter next || next == '_' then
      .error (.malformedNumber (String.ofList (digits ++ [next])))
    else if Text.isNumber text then .ok text
    else .error (.malformedNumber text)
  | [] => if Text.isNumber text then .ok text else .error (.malformedNumber text)

def scan : List Char → Except LiteralProblem (List Lexeme)
  | [] => .ok []
  | c :: cs =>
    if Text.isBlank c then scan cs
    else if Text.isDigit c then
      match scanNumber c cs with
      | .error e => .error e
      | .ok text =>
        match scan (cs.dropWhile isNumberPart) with
        | .error e => .error e
        | .ok units => .ok (.number text :: units)
    else if Text.isLetter c || c == '_' then
      match scan (cs.dropWhile isNamePart) with
      | .error e => .error e
      | .ok units => .ok (.name (String.ofList (c :: cs.takeWhile isNamePart)) :: units)
    else if isSign c then
      match scan cs with
      | .error e => .error e
      | .ok units => .ok (.sign c :: units)
    else .error (.unexpectedCharacter c)
termination_by cs => cs.length
decreasing_by
  all_goals simp only [List.length_cons]
  all_goals first
    | omega
    | exact Nat.lt_succ_of_le (List.dropWhile_suffix _).length_le

abbrev Parsed := Arith × List Lexeme

/-- Takes the sign `c` from the front, and tells whether it was there. -/
def close (c : Char) : List Lexeme → Bool × List Lexeme
  | .sign d :: rest => if d = c then (true, rest) else (false, [])
  | _ => (false, [])

/-- Reads the arguments of a call, which are separated by commas. -/
def arguments (sum : List Lexeme → Parsed) (units : List Lexeme) : List Arith × List Lexeme :=
  match sum units with
  | (arg, .sign ',' :: rest) =>
    if _h : rest.length < units.length then
      let (args, rest) := arguments sum rest
      (arg :: args, rest)
    else ([.stuck], [])
  | (arg, rest) => ([arg], rest)
termination_by units.length

/-- Reads a number, a name, a call or a tree in parentheses. -/
def primary (sum : List Lexeme → Parsed) : List Lexeme → Parsed
  | [] => (.broken (.literal .incomplete), [])
  | .number text :: rest => (.number text, rest)
  | .name text :: .sign '(' :: .sign ')' :: rest => (.call text [] true, rest)
  | .name text :: .sign '(' :: rest =>
    let (args, rest) := arguments sum rest
    let (closed, rest) := close ')' rest
    (.call text args closed, rest)
  | .name text :: rest => (.name text, rest)
  | .sign '(' :: rest =>
    let (inner, rest) := sum rest
    let (closed, rest) := close ')' rest
    (.paren inner closed, rest)
  | .sign c :: _ => (.broken (.unexpected c.toString .literal), [])

def postfixes (sum : List Lexeme → Parsed) (operand : Arith) (units : List Lexeme) : Parsed :=
  match units with
  | .sign '^' :: rest => postfixes sum (.deref operand) rest
  | .sign '|' :: rest =>
    let (position, after) := sum rest
    let (closed, after) := close '|' after
    if _h : after.length ≤ rest.length then postfixes sum (.index operand position closed) after
    else (.stuck, [])
  | _ => (operand, units)
termination_by units.length

def unary (sum : List Lexeme → Parsed) : List Lexeme → Parsed
  | .sign '-' :: rest =>
    let (operand, rest) := unary sum rest
    (.negate operand, rest)
  | units =>
    let (operand, rest) := primary sum units
    postfixes sum operand rest

/-- Reads what follows a tree in a chain of operators, which group to the left. -/
def chain (isOp : Char → Bool) (operand : List Lexeme → Parsed) (left : Arith)
    (units : List Lexeme) : Parsed :=
  match units with
  | .sign op :: rest =>
    if isOp op then
      let (right, after) := operand rest
      if _h : after.length ≤ rest.length then chain isOp operand (.binary op left right) after
      else (.stuck, [])
    else (left, units)
  | _ => (left, units)
termination_by units.length

def isProductOp (c : Char) : Bool :=
  c == '*' || c == '/' || c == '%'

def isSumOp (c : Char) : Bool :=
  c == '+' || c == '-'

def product (sum : List Lexeme → Parsed) (units : List Lexeme) : Parsed :=
  let (left, rest) := unary sum units
  chain isProductOp (unary sum) left rest

def sum (units : List Lexeme) : Parsed :=
  let smaller (inner : List Lexeme) : Parsed :=
    if _h : inner.length < units.length then sum inner else (.stuck, [])
  let (left, rest) := product smaller units
  chain isSumOp (product smaller) left rest
termination_by units.length

end Arith

end Impulse
