import Impulse.Node.Format
import Impulse.View

/-!
# Dereferences, indices and calls

The checks behind the postfix operators and calls. They are the same for expressions and for arithmetic in
bracket groups.
-/

namespace Impulse

/-- Whether values of the type can be computed with. A placeholder may stand for a number. -/
def Ty.isArithmetic (t : Ty) : Bool :=
  t.resolved.isPlaceholder || t.resolved.isNumeric

namespace Infer

def deref (t : Token) (n : Node) : Infer Node :=
  match n.ty.resolved with
  | .pointer elem => pure (.node t elem (.deref n))
  | _ => fail t (.expr (.noPointer n.text n.ty))

def index (t : Token) (n position : Node) : Infer Node := do
  let base := n.ty.resolved
  if base.element?.isNone then fail t (.expr (.noIndex n.text n.ty))
  else if !position.isNumber && !position.ty.isArithmetic then
    fail t (.expr (.indexNotNumeric position.text))
  else return .node t (.view base position.text) (.index n position)

/-- A function to be called, and the receiver that goes in front of the arguments of a method call. -/
structure Callee where
  sig : Signature
  receiver : Option Node := none

/-- The method that `name` calls on a variable: the variable, whether it is a pointer, and the full name
of the method with its signature. -/
def method? (v : View) (name : String) : Option (Variable × Bool × String × Signature) := do
  let (path, method) ← Text.cutLast? '.' name
  if path = "" then none
  let x ← v.find? path
  let (isPointer, struct, _) ← x.ty.structTarget?
  let full := struct ++ "." ++ method
  let sig ← v.context.functions.get? full
  return (x, isPointer, full, sig)

/-- The function that a call names, with the name it is registered under. A call `v.m(…)` on a struct `S`
is a call of `S.m` on the address of `v`, or on `v` itself if that is a pointer. -/
def callee (t : Token) : Infer (String × Callee) := do
  let v ← read
  match v.context.functions.get? t.value with
  | some sig => return (t.value, { sig := sig })
  | none =>
    match method? v t.value with
    | none => fail t (.expr (.undefinedFunction t.value))
    | some (x, isPointer, full, sig) =>
      if !v.settings.feature .methodCalls then fail t (.expr (.methodCallsOff full))
      else
        let self : Node := .node t x.ty (.name x.name x.flat)
        return (full, { sig := sig, receiver := some (if isPointer then self else .addressOf t self) })

/-- The node of a call. It has the result type of the function with its placeholders bound. -/
def call (t : Token) (name : String) (sig : Signature) (args : List Node) : Infer Node := do
  let v ← read
  let bindings ←
    match Call.check v.context.functions name args with
    | .ok b => pure b
    | .error e => do
      mismatch t (.call e)
      pure []
  let ret := if sig.ret.isAbsent then Ty.void else sig.ret
  return .node t (ret.subst bindings) (.call name args)

end Infer

end Impulse
