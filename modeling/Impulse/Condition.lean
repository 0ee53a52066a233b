import Impulse.Expr

/-!
# Conditions

A condition is a sequence of operands and operators: comparisons, `and`, `or`, `!` and parentheses. Operands
are expressions; the parentheses of a call and what stands between bars belong to them.
-/

namespace Impulse

inductive Condition.Piece
  | operand (toks : List Token)
  | operator (t : Token)
  /-- The sign at this token is not matched. -/
  | unmatched (t : Token) (sign : String)

namespace Condition

def isOperator (t : Token) : Bool :=
  [Token.Kind.equals, .less, .greater, .bang, .kwAnd, .kwOr].contains t.kind

def operandOf (toks : List Token) : List Piece :=
  if toks.isEmpty then [] else [.operand toks]

/-- The parts of a condition. `pending` holds the tokens of the operand that is being read. -/
def pieces (pending : List Token) (toks : List Token) : List Piece :=
  match toks with
  | [] => operandOf pending
  | t :: rest =>
    if isOperator t || t.kind = .rparen then operandOf pending ++ .operator t :: pieces [] rest
    else if t.kind = .lparen then
      if (pending.getLast?.map (·.kind)) = some .ident then
        match _h : Token.untilClose 0 rest with
        | none => [.unmatched t "("]
        | some (inner, after) => pieces (pending ++ t :: rest.take (inner.length + 1)) after
      else operandOf pending ++ .operator t :: pieces [] rest
    else if t.kind = .pipe then
      let inner := rest.takeWhile (·.kind != .pipe)
      match _h : rest.drop inner.length with
      | [] => [.unmatched t "|"]
      | bar :: after => pieces (pending ++ t :: inner ++ [bar]) after
    else pieces (pending ++ [t]) rest
termination_by toks.length
decreasing_by
  all_goals simp only [List.length_cons]
  · omega
  · have := Token.untilClose_length _h
    omega
  · omega
  · have := congrArg List.length _h
    simp only [List.length_drop, List.length_cons] at this
    omega
  · omega

/-- A condition may not end with an operator that needs an operand. -/
def dangling? (nodes : List Node) : Option Token :=
  match nodes.getLast? with
  | some (.node t _ (.operator kind)) => if kind = .rparen then none else some t
  | _ => none

end Condition

namespace Infer

open Condition

def conditionNodes : List Piece → Infer (List Node)
  | [] => pure []
  | piece :: rest => do
    let n ←
      match piece with
      | .operand toks => expression toks .absent
      | .operator t => pure (.plain t (.operator t.kind))
      | .unmatched t sign => fail t (.unmatched sign)
    let ns ← conditionNodes rest
    return n :: ns

/-- The nodes of a condition that stands behind the parenthesis `opened`. -/
def condition (opened : Token) (toks : List Token) : Infer (List Node) := do
  if toks.isEmpty then fail opened (.expr .emptyCondition)
  else
    let nodes ← conditionNodes (pieces [] toks)
    match dangling? nodes with
    | some t => fail t (.expr (.incompleteCondition t.text))
    | none => return nodes

end Infer

end Impulse
