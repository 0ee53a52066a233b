import Impulse.Arith
import Impulse.Expr.Access

/-!
# Computing arithmetic

A tree of arithmetic becomes a node. Operators on known integers are computed if folding is on; numbers
have no bound, but a result that does not fit into a machine word raises a warning. Everything else stays an
operator node.
-/

namespace Impulse

/-- The integer a node stands for if it is a computed number. -/
def Node.integer? : Node → Option Int
  | .node _ _ (.number value .absent) =>
    if Text.contains value '.' then none else Text.integer? value
  | _ => none

namespace Arith

/-- An operator on integers. Division goes toward zero and the remainder has the sign of the dividend;
there is no division by zero. -/
def compute? (op : Char) (a b : Int) : Option Int :=
  if op = '+' then some (a + b)
  else if op = '-' then some (a - b)
  else if op = '*' then some (a * b)
  else if b = 0 then none
  else if op = '/' then some (a.tdiv b)
  else some (a.tmod b)

/-- Whether a value fits into a word of the given bits, signed or unsigned. -/
def fits (bits : Nat) (value : Int) : Bool :=
  decide (-Int.pow 2 (bits - 1) ≤ value) && decide (value ≤ Int.pow 2 bits - 1)

/-- The type of an operator node: that of a fractional operand, or else that of the first operand that is
no number. -/
def resultTy (left right : Node) : Ty :=
  let isFloat (n : Node) : Bool :=
    match n.ty.resolved with
    | .prim p => p.isFloat
    | _ => false
  if isFloat left then left.ty.resolved
  else if isFloat right then right.ty.resolved
  else if left.isNumber && !right.isNumber then right.ty.resolved
  else left.ty.resolved

/-- Operands must be of a type that can be computed with. -/
def requireNumeric (t : Token) (op : Char) (n : Node) : Infer Unit :=
  if n.ty.isArithmetic then pure ()
  else Infer.fail t (.literal (.operandNotNumeric n.text op n.ty))

def foldOp (t : Token) (op : Char) (ty : Ty) (a b : Int) : Infer Node := do
  match compute? op a b with
  | none => Infer.fail t (.literal .divisionByZero)
  | some value =>
    let bits := (← read).settings.wordSize * 8
    if !fits bits value then Infer.warn t (.overflow value bits)
    return .numeral t (toString value) ty

def combine (t : Token) (op : Char) (left right : Node) : Infer Node := do
  requireNumeric t op left
  requireNumeric t op right
  let ty := resultTy left right
  let folding := (← read).settings.feature .fold
  match if folding then left.integer? else none, right.integer? with
  | some a, some b => foldOp t op ty a b
  | _, b =>
    if (op = '/' || op = '%') && b = some 0 then Infer.fail t (.literal .divisionByZero)
    else return .node t ty (.binary op left right)

/-- A variable, or the value of a constant that is known. -/
def nameNode (t : Token) (name : String) : Infer Node := do
  let v ← read
  match v.find? name with
  | none => Infer.fail t (.literal (.unknownName name))
  | some x =>
    if x.const && x.value != "" && v.settings.feature .fold then return .numeral t x.value x.ty
    else return .node t x.ty (.name x.name x.flat)

def requireClosed (t : Token) (sign : String) (closed : Bool) : Infer Unit :=
  if closed then pure () else Infer.fail t (.literal (.expected sign))

mutual

/-- The node of a tree that stands in the bracket group `t`. -/
def reduce (t : Token) : Arith → Infer Node
  | number text => pure (.numeral t text (if Text.contains text '.' then .f64 else .int))
  | name text => nameNode t text
  | call f args closed => do
    let callToken := { t with value := f }
    let (full, callee) ← Infer.callee callToken
    let args ← reduceAll t args
    requireClosed t ")" closed
    Infer.call callToken full callee.sig (callee.receiver.toList ++ args)
  | negate operand => do
    let n ← reduce t operand
    combine t '-' (.numeral t "0" .int) n
  | binary op left right => do
    let a ← reduce t left
    let b ← reduce t right
    combine t op a b
  | deref operand => do
    let n ← reduce t operand
    Infer.deref t n
  | index base position closed => do
    let n ← reduce t base
    let i ← reduce t position
    requireClosed t "|" closed
    Infer.index t n i
  | paren inner closed => do
    let n ← reduce t inner
    requireClosed t ")" closed
    return n
  | broken p => Infer.fail t p
  | stuck => Infer.fault .notSmaller

def reduceAll (t : Token) : List Arith → Infer (List Node)
  | [] => pure []
  | a :: as => do
    let n ← reduce t a
    let ns ← reduceAll t as
    return n :: ns

end

end Arith

/-- The number that the text `raw` of a bracket group stands for. A computed number takes the type that
is wanted, if that is numeric; arithmetic that is not computed keeps its own. -/
def Infer.arithmetic (t : Token) (raw : String) (want : Ty) : Infer Node := do
  match Arith.scan raw.toList with
  | .error e => fail t (.literal e)
  | .ok units =>
    let (tree, rest) := Arith.sum units
    let n ← tree.reduce t
    match rest with
    | unit :: _ => fail t (.unexpected unit.text (.group raw))
    | [] =>
      match n with
      | .node _ _ (.number value _) =>
        if want.resolved.isNumeric then return .numeral t value want.resolved else return n
      | _ =>
        if !n.ty.isArithmetic then fail t (.literal (.notNumeric raw n.text n.ty))
        else return .node t n.ty (.number n.text n)

end Impulse
