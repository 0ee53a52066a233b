import Impulse.Proofs.Repetition
import Impulse.Proofs.WrittenArith

/-!
# Method calls

A method can be called on a variable. That is only another way to write a call of the function that the method is, with
the variable in front of its arguments: as it is if it is a pointer, and by its address otherwise.
-/

namespace Impulse

open List

open Infer (Repeats smaller expression arguments callExpr)

/-- A method that can be called on a variable. No function has the name that such a call begins with. -/
structure Method (v : View) where
  path : String
  name : String
  receiver : Variable
  isPointer : Bool
  struct : String
  args : List Ty
  sig : Signature
  named : path ≠ ""
  plain : '.' ∉ name.toList
  found : v.find? path = some receiver
  target : receiver.ty.structTarget? = some (isPointer, struct, args)
  registered : v.context.functions.get? (struct ++ "." ++ name) = some sig
  free : v.context.functions.get? (path ++ "." ++ name) = none

namespace Infer

theorem expression_call {inner : List Token} (ident : t.kind = .ident)
    (opens : opened.kind = .lparen) (closes : Token.untilClose 0 (inner ++ [closed]) = some (inner, [])) (want : Ty)
    (notices : List Notice) : expression (t :: opened :: (inner ++ [closed])) want v notices
      = callExpr (smaller (t :: opened :: (inner ++ [closed]))) t inner v notices := by
  have group : closing opened (inner ++ [closed]) = .ok (inner, []) := by
    rw [closing, closes]
  refine expression_of_unary (cons_ne_nil _ _) fun final => ?_
  simp only [unary, ident, reduceCtorEq, if_false, Bool.or_self, decide_false, Bool.false_eq_true, postfixed, primary,
    opens, if_true, group]
  show ((callExpr _ t inner >>= fun n => pure (n, [])) >>= fun p => postfixes _ p.1 p.2) v notices = _
  rw [reading_bind, reading_bind]
  cases callExpr _ t inner v notices with
  | ok n s =>
    show postfixes _ n [] v s = _
    rw [postfixes]
  | error e s => rfl

theorem postfixed_variable
    (ident : name.kind = .ident) (found : v.find? name.value = some x) :
    postfixed sub final want [name] v notices = .ok (.node name x.ty (.name x.name x.flat), []) notices := by
  simp only [postfixed, primary, ident]
  rw [reading_bind, nameExpr_variable found]
  show postfixes sub _ [] v notices = _
  rw [postfixes]
  rfl

theorem smaller_eq {toks inner : List Token} (h : Token.totalWeight inner < Token.totalWeight toks) :
    smaller toks inner = expression inner :=
  funext fun _ => dif_pos h

theorem expression_twins (toks : List Token) (want : Ty) :
    Repeats v (expression toks want) (expression toks want) (Node.Twins fun _ _ => True) := by
  have same : (Comparison.ofTexts v.settings).Tokens [] toks toks := forall₂_same.mpr fun _ _ => rfl
  intro n before after given before'
  obtain ⟨m, after', given', twins⟩ := (expression_agrees want same).repeats n before after given before'
  exact ⟨m, after', given', twins.alike.imp fun _ _ _ => trivial, twins.present⟩

theorem arguments_repeats (hsub : ∀ toks ∈ parts, ∀ want, Repeats v (sub toks want) (sub' toks want) R) :
    Repeats v (arguments sub t name i params parts) (arguments sub' u name' j params parts) (List.Forall₂ R) := by
  induction parts generalizing i j params with
  | nil => exact .pure .nil
  | cons toks parts ih =>
    obtain ⟨first, others⟩ := forall_mem_cons.mp hsub
    rw [arguments, arguments]
    refine .ite (fun _ => .fail) fun _ => (first _).bind fun n n' alike => ?_
    exact (ih others).bind fun ns ns' rest => .pure (.cons alike rest)

end Infer

theorem Text.cutLast?_append (front : String) (h : c ∉ back.toList) :
    cutLast? c (front ++ String.singleton c ++ back) = some (front, back) := by
  have after : (back.toList.reverse ++ c :: front.toList.reverse).takeWhile (· != c) = back.toList.reverse := by
    rw [takeWhile_append_of_pos fun d mem => ?_]
    · simp
    · rw [bne_iff_ne]
      rintro rfl
      exact h (mem_reverse.mp mem)
  simp [cutLast?, after]

namespace Method

open Infer

variable (m : Method v)

def full : String :=
  m.struct ++ "." ++ m.name

/-- The tokens, apart from the arguments, of the two ways to write a call. -/
structure Tokens where
  method : Token
  function : Token
  opened : Token
  ampersand : Token
  self : Token
  comma : Token
  closed : Token
  isMethod : method.kind = .ident ∧ method.value = m.path ++ "." ++ m.name
  isFunction : function.kind = .ident ∧ function.value = m.full
  opens : opened.kind = .lparen
  isAmpersand : ampersand.kind = .ampersand
  isSelf : self.kind = .ident ∧ self.value = m.path
  separates : comma.kind = .comma
  closes : closed.kind = .rparen

/-- The node of the variable as an argument. -/
def self (ampersand self : Token) : Node :=
  let own : Node := .node self m.receiver.ty (.name m.receiver.name m.receiver.flat)
  if m.isPointer then own else .addressOf ampersand own

theorem self_twins (t self t' self' : Token) : Node.Twins (fun _ _ => True) (m.self t self) (m.self t' self') := by
  have own : Node.Twins (fun _ _ => True) (.node self m.receiver.ty (.name m.receiver.name m.receiver.flat))
      (.node self' m.receiver.ty (.name m.receiver.name m.receiver.flat)) := .leaf rfl trivial
  unfold Method.self
  cases m.isPointer with
  | true => exact own
  | false => exact .node (.address (_, _)) trivial (forall_mem_singleton.mpr own.alike)

/-- A call with the receiver `r` in front of the arguments that `sub` reads. -/
def callOn (sub : Sub) (t : Token) (r : Node) (position : Nat) (inner : List Token) : Infer Node := do
  let args ← arguments sub t m.full position m.sig.params.tail (Token.splitTop .comma inner)
  call t m.full m.sig (r :: args)

theorem callOn_repeats {inner : List Token} (t u : Token) (i j : Nat)
    (receiver : Node.Twins (fun _ _ => True) r r')
    (hsub : ∀ toks ∈ Token.splitTop .comma inner, sub toks = expression toks ∧ sub' toks = expression toks) :
    Repeats v (m.callOn sub t r i inner) (m.callOn sub' u r' j inner) (Node.Twins fun _ _ => True) := by
  have marks : (Comparison.ofTexts v.settings).Marks [] fun _ _ => True :=
    ⟨fun _ => trivial, fun _ => trivial, fun _ _ => trivial⟩
  have again (toks : List Token) (part : toks ∈ Token.splitTop .comma inner) (want : Ty) :
      Repeats v (sub toks want) (sub' toks want) (Node.Twins fun _ _ => True) := by
    rw [(hsub toks part).1, (hsub toks part).2]
    exact expression_twins toks want
  exact (arguments_repeats again).bind fun args args' alike =>
    (call_agrees marks trivial m.full m.sig (.cons receiver alike)).repeats

namespace Tokens

variable {m} (w : m.Tokens) (inner : List Token)

def onVariable : List Token :=
  w.method :: w.opened :: (inner ++ [w.closed])

def argument : List Token :=
  if m.isPointer then [w.self] else [w.ampersand, w.self]

def arguments : List Token :=
  w.argument ++ if inner = [] then [] else w.comma :: inner

/-- The call of the function with the variable as its first argument. -/
def direct : List Token :=
  w.function :: w.opened :: (w.arguments inner ++ [w.closed])

variable {inner}

theorem callee_method (on : v.settings.feature .methodCalls = true) (notices : List Notice) :
    callee w.method v notices
      = .ok (m.full, { sig := m.sig, receiver := some (m.self w.method w.method) }) notices := by
  have cut : Text.cutLast? '.' (m.path ++ "." ++ m.name) = some (m.path, m.name) :=
    Text.cutLast?_append m.path m.plain
  have found : method? v w.method.value = some (m.receiver, m.isPointer, m.full, m.sig) := by
    simp [method?, w.isMethod.2, cut, m.named, m.found, m.target, m.registered, full]
  have free : v.context.functions.get? w.method.value = none := w.isMethod.2 ▸ m.free
  have seen : (read : Infer View) v notices = .ok v notices := rfl
  rw [callee, reading_bind, seen]
  dsimp only
  rw [free]
  dsimp only
  rw [found]
  simp only [on]
  rfl

theorem callee_function (notices : List Notice) :
    callee w.function v notices = .ok (m.full, { sig := m.sig }) notices := by
  have registered : v.context.functions.get? w.function.value = some m.sig := w.isFunction.2 ▸ m.registered
  have seen : (read : Infer View) v notices = .ok v notices := rfl
  rw [callee, reading_bind, seen]
  dsimp only
  rw [registered, w.isFunction.2]
  rfl

theorem expression_argument (want : Ty) (notices : List Notice) :
    expression w.argument want v notices = .ok (m.self w.ampersand w.self) notices := by
  have found : v.find? w.self.value = some m.receiver := w.isSelf.2 ▸ m.found
  unfold argument Method.self
  cases m.isPointer with
  | true =>
    rw [if_pos rfl, if_pos rfl]
    refine expression_of_unary (x := pure _) (cons_ne_nil _ _) fun final => ?_
    simp only [unary, w.isSelf.1, reduceCtorEq, if_false, Bool.or_self, decide_false, Bool.false_eq_true]
    exact postfixed_variable w.isSelf.1 found
  | false =>
    rw [if_neg Bool.false_ne_true, if_neg Bool.false_ne_true]
    refine expression_of_unary (x := pure _) (cons_ne_nil _ _) fun final => ?_
    simp only [unary, w.isAmpersand, if_true]
    rw [reading_bind, postfixed_variable w.isSelf.1 found]
    rfl

theorem splitTop_arguments : Token.splitTop .comma (w.arguments inner) = w.argument :: Token.splitTop .comma inner := by
  have kinds := And.intro w.isSelf.1 (And.intro w.isAmpersand w.separates)
  unfold arguments argument
  cases m.isPointer <;> cases inner <;> simp [Token.splitTop, Token.splitFrom, Token.consHead, kinds]

variable (nested : Token.untilClose 0 (inner ++ [w.closed]) = some (inner, []))

include nested

theorem untilClose_arguments : Token.untilClose 0 (w.arguments inner ++ [w.closed]) = some (w.arguments inner, []) := by
  have kinds := And.intro w.isSelf.1 (And.intro w.isAmpersand w.separates)
  unfold arguments argument
  cases m.isPointer <;> cases inner <;> simp_all [Token.untilClose, Token.consFst]

theorem expression_onVariable (on : v.settings.feature .methodCalls = true) (want : Ty) (notices : List Notice) :
    expression (w.onVariable inner) want v notices
      = m.callOn (smaller (w.onVariable inner)) w.method (m.self w.method w.method) 1 inner v notices := by
  rw [onVariable, expression_call w.isMethod.1 w.opens nested, callExpr, reading_bind, w.callee_method on]
  dsimp only
  rw [Option.toList_some, length_singleton, drop_one]
  rfl

theorem expression_direct (want : Ty) (notices : List Notice) : expression (w.direct inner) want v notices
    = m.callOn (smaller (w.direct inner)) w.function (m.self w.ampersand w.self) 2 inner v notices := by
  rw [direct, expression_call w.isFunction.1 w.opens (w.untilClose_arguments nested), callExpr, reading_bind,
    w.callee_function]
  dsimp only
  have some : w.argument.isEmpty = false := by
    unfold argument
    cases m.isPointer <;> rfl
  have lighter : Token.totalWeight w.argument < Token.totalWeight (w.direct inner) := by
    have := w.function.weight_pos
    simp only [direct, arguments, Token.totalWeight_cons, Token.totalWeight_append]
    omega
  have own (want : Ty) : smaller (w.direct inner) w.argument want v notices
      = .ok (m.self w.ampersand w.self) notices := by
    rw [smaller_eq lighter, w.expression_argument]
  rw [w.splitTop_arguments, Infer.arguments, some, ← direct]
  simp only [Bool.false_eq_true, if_false]
  rw [reading_bind, reading_bind, own]
  simp only [Option.toList_none, length_nil, drop_zero, Nat.reduceAdd, nil_append]
  rw [callOn, reading_bind, reading_bind]
  cases Infer.arguments (smaller (w.direct inner)) w.function m.full 2 m.sig.params.tail
    (Token.splitTop .comma inner) v notices <;> rfl

omit nested in
theorem weight_lt (toks : List Token) (part : toks ∈ Token.splitTop .comma inner) :
    Token.totalWeight toks < Token.totalWeight (w.onVariable inner) ∧
      Token.totalWeight toks < Token.totalWeight (w.direct inner) := by
  have lighter := Token.totalWeight_splitTop_le part
  have := w.method.weight_pos
  have := w.function.weight_pos
  have inside : Token.totalWeight inner ≤ Token.totalWeight (w.arguments inner) := by
    unfold arguments
    split
    · next none => simp [none]
    · simp only [Token.totalWeight_append, Token.totalWeight_cons]
      omega
  simp only [onVariable, direct, Token.totalWeight_cons, Token.totalWeight_append]
  omega

end Tokens

/-- With method calls switched on, a call of a method on a variable gives a node if, and only if, the call of the function
with the variable as its first argument does, and the nodes are the same up to tokens. -/
theorem expression_methodCall (on : v.settings.feature .methodCalls = true) (w : m.Tokens) (inner : List Token)
    (nested : Token.untilClose 0 (inner ++ [w.closed]) = some (inner, [])) (want : Ty) :
    Repeats v (expression (w.onVariable inner) want) (expression (w.direct inner) want) (Node.Twins fun _ _ => True) ∧
      Repeats v (expression (w.direct inner) want) (expression (w.onVariable inner) want)
        (Node.Twins fun _ _ => True) := by
  have sub (toks : List Token) (part : toks ∈ Token.splitTop .comma inner) :
      smaller (w.onVariable inner) toks = expression toks ∧ smaller (w.direct inner) toks = expression toks :=
    ⟨smaller_eq (w.weight_lt toks part).1, smaller_eq (w.weight_lt toks part).2⟩
  have there := m.callOn_repeats w.method w.function 1 2 (m.self_twins w.method w.method w.ampersand w.self) sub
  have back := m.callOn_repeats w.function w.method 2 1 (m.self_twins w.ampersand w.self w.method w.method)
    fun toks part => (sub toks part).symm
  unfold Repeats at there back ⊢
  simp only [w.expression_onVariable nested on, w.expression_direct nested]
  exact ⟨there, back⟩

/-- `p.m(2)` and `S.m(&p, 2)`, where `p` has the type `S`. -/
theorem expression_methodCall_struct :
    let sig : Signature := {
      name := "S.m", ret := .int, params := [⟨"self", .pointer (.named "S" [])⟩, ⟨"n", .int⟩], method := "S" }
    let v : View := {
      settings := {}
      context := { functions := ⟨[⟨"S.m", sig, "main.imp"⟩]⟩ }
      scope := { top := { kind := .global, visible := [{ name := "p", ty := .named "S" [] }] } }
      last := default }
    let word (kind : Token.Kind) (value : String) : Token := { (default : Token) with kind := kind, value := value }
    let args : List Token := [word .number "2"]
    let called : List Token := [word .ident "p.m", word .lparen "("] ++ args ++ [word .rparen ")"]
    let direct : List Token :=
      [word .ident "S.m", word .lparen "(", word .ampersand "&", word .ident "p", word .comma ","] ++ args
        ++ [word .rparen ")"]
    (∃ n, Gives v (expression called .int) n) ∧
      Repeats v (expression called .int) (expression direct .int) (Node.Twins fun _ _ => True) ∧
      Repeats v (expression direct .int) (expression called .int) (Node.Twins fun _ _ => True) := by
  intro sig v word args called direct
  let m : Method v := {
    path := "p", name := "m", receiver := { name := "p", ty := .named "S" [] }, isPointer := false, struct := "S"
    args := [], sig := sig
    named := by decide
    plain := by decide
    found := by
      unfold v
      cbv
    target := rfl
    registered := rfl
    free := rfl }
  let w : m.Tokens := {
    method := word .ident "p.m", function := word .ident "S.m", opened := word .lparen "("
    ampersand := word .ampersand "&", self := word .ident "p", comma := word .comma ",", closed := word .rparen ")"
    isMethod := ⟨rfl, rfl⟩, isFunction := ⟨rfl, rfl⟩, opens := rfl, isAmpersand := rfl, isSelf := ⟨rfl, rfl⟩
    separates := rfl, closes := rfl }
  have read : expression called .int v [] = .ok (.node w.method .int (.call "S.m" [m.self w.method w.method,
      .numeral (word .number "2") "2" .int])) [] := by
    unfold called args w m word v sig
    cbv
  exact ⟨⟨_, [], [], read⟩, m.expression_methodCall (by decide) w args rfl .int⟩

end Method

end Impulse
