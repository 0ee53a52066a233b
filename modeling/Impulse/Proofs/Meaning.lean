import Impulse.Proofs.Formulas
import Impulse.Arith.Reduce
import Mathlib

/-!
# The meaning of arithmetic

Arithmetic in a bracket group is evaluated over any domain that holds the rational numbers: places, pointers and what
functions take and give are left open. An operator works on rational numbers; whether a division is exact or goes toward
zero depends on the type of the node, which is fractional or not.
-/

namespace Impulse

namespace Text

def digitValue (c : Char) : ℚ :=
  ((c.toNat - '0'.toNat : ℕ) : ℚ)

def fractionValue : List Char → ℚ
  | [] => 0
  | c :: cs => (digitValue c + fractionValue cs) / 10

def unsignedValue (acc : ℚ) : List Char → ℚ
  | [] => acc
  | c :: cs => if c = '.' then acc + fractionValue cs else unsignedValue (acc * 10 + digitValue c) cs

/-- The value of a number that may have a sign and a point. -/
def decimal (s : String) : ℚ :=
  if s.toList.head? = some '-' then -unsignedValue 0 s.toList.tail
  else if s.toList.head? = some '+' then unsignedValue 0 s.toList.tail
  else unsignedValue 0 s.toList

theorem unsignedValue_of_digitsValue? (h : digitsValue? acc cs = some n) :
    unsignedValue acc cs = n := by
  induction cs generalizing acc with
  | nil =>
    obtain rfl := Option.some.inj h
    rfl
  | cons c cs ih =>
    rw [digitsValue?] at h
    split at h
    · next digit =>
      have noPoint : c ≠ '.' := by
        rintro rfl
        exact absurd digit (by decide)
      rw [unsignedValue, if_neg noPoint, ← ih h]
      simp [digitValue]
    · cases h

theorem decimal_of_integer? (h : integer? s = some z) : decimal s = z := by
  obtain ⟨cs, n, read, text⟩ := integer?_cases h
  have nonempty : cs ≠ [] := by
    rintro rfl
    cases read
  rw [natural?_eq nonempty] at read
  have value : unsignedValue 0 cs = n := by simpa using unsignedValue_of_digitsValue? read
  have digit : ∀ c ∈ cs.head?, isAsciiDigit c = true := fun c first =>
    isAsciiDigit_of_digitsValue? read c (List.mem_of_mem_head? first)
  have other (c : Char) (sign : isAsciiDigit c = false) : cs.head? ≠ some c := by
    intro first
    rw [digit c first] at sign
    cases sign
  unfold decimal
  rcases text with ⟨text, rfl⟩ | ⟨text, rfl⟩ | ⟨text, rfl⟩
  · rw [text, if_neg (other '-' (by decide)), if_neg (other '+' (by decide)), value]
    rfl
  · rw [text, List.head?_cons, if_pos rfl, List.tail_cons, value]
    simp
  · rw [text, List.head?_cons, if_neg (by simp), if_pos rfl, List.tail_cons, value]
    rfl

end Text

def truncate (q : ℚ) : ℤ :=
  q.num.tdiv q.den

theorem truncate_div (a b : ℤ) : truncate (a / b) = a.tdiv b := by
  by_cases zero : b = 0
  · rw [zero]
    simp [truncate]
  · obtain ⟨c, num, den⟩ := Rat.exists_eq_mul_div_num_and_eq_mul_div_den a zero
    have nonzero : c ≠ 0 := by
      rintro rfl
      exact zero (by simpa using den)
    have reduced (x y : ℤ) : (c * x).tdiv (c * y) = x.tdiv y := by
      rcases Int.lt_or_gt_of_ne nonzero with below | above
      · rw [← Int.neg_tdiv_neg, ← Int.neg_mul, ← Int.neg_mul, Int.mul_tdiv_mul_of_pos _ _ (by omega)]
      · exact Int.mul_tdiv_mul_of_pos _ _ above
    rw [truncate, ← reduced, ← num, ← den]

/-- An operator on rational numbers. A quotient is exact or goes toward zero, and a remainder is what the quotient
toward zero leaves. -/
def operate (exact : Bool) (op : Char) (a b : ℚ) : ℚ :=
  if op = '+' then a + b
  else if op = '-' then a - b
  else if op = '*' then a * b
  else if op = '/' then if exact then a / b else truncate (a / b)
  else a - b * truncate (a / b)

theorem operate_of_compute? (h : Arith.compute? op a b = some z)
    (divides : exact = true → op = '/' → b ∣ a) : operate exact op a b = z := by
  unfold Arith.compute? at h
  unfold operate
  split at h
  · next add =>
    rw [if_pos add, ← Option.some.inj h]
    push_cast
    rfl
  · next add =>
    rw [if_neg add]
    split at h
    · next sub =>
      rw [if_pos sub, ← Option.some.inj h]
      push_cast
      rfl
    · next sub =>
      rw [if_neg sub]
      split at h
      · next mul =>
        rw [if_pos mul, ← Option.some.inj h]
        push_cast
        rfl
      · next mul =>
        rw [if_neg mul]
        split at h
        · cases h
        · next nonzero =>
          split at h
          · next div =>
            rw [if_pos div, ← Option.some.inj h]
            cases exact with
            | false =>
              rw [if_neg (by simp), truncate_div]
            | true =>
              obtain ⟨c, rfl⟩ := divides rfl div
              rw [if_pos rfl, Int.mul_tdiv_cancel_left c nonzero]
              push_cast
              exact mul_div_cancel_left₀ (c : ℚ) (Int.cast_ne_zero.mpr nonzero)
          · next div =>
            rw [if_neg div, ← Option.some.inj h, truncate_div, Int.tmod_def]
            push_cast
            rfl

def Ty.isFloat (ty : Ty) : Bool :=
  ty.same (.prim .f32) || ty.same (.prim .f64)

def Node.isFloat (n : Node) : Bool :=
  n.ty.resolved.isFloat

/-- What arithmetic is evaluated with: a domain that holds the rational numbers, and what names, functions and the other
operators stand for. -/
structure Meaning (V : Type) where
  number : ℚ → V
  value : V → ℚ
  value_number : ∀ q, value (number q) = q
  name : String → V
  call : String → List V → V
  deref : V → V
  address : V → V
  index : V → V → V

namespace Meaning

variable (m : Meaning V) (t : Token) (ty : Ty) (n : Node) (text : String)

/-- Everything is a rational number, and no function gives anything. -/
def rational (name : String → ℚ) : Meaning ℚ where
  number q := q
  value q := q
  value_number _ := rfl
  name := name
  call _ _ := 0
  deref q := q
  address q := q
  index q _ := q

/-- The value of a form whose children are evaluated. What stands for no value has none. -/
def form (m : Meaning V) (ty : Ty) : Form (Option V) → Option V
  | .number text expr => some (expr.getD (m.number (Text.decimal text)))
  | .name x _ => some (m.name x)
  | .deref a => a.map m.deref
  | .address a => a.map m.address
  | .index a i => a.bind fun a => i.map fun i => m.index a i
  | .call f args => if args.all Option.isSome then some (m.call f args.reduceOption) else none
  | .binary op a b => a.bind fun a => b.map fun b => m.number (operate ty.isFloat op (m.value a) (m.value b))
  | _ => none

def eval (m : Meaning V) (n : Node) : Option V :=
  n.fold none fun _ => m.form

/-- Constants whose value is known stand for that value. -/
def Respects (m : Meaning V) (v : View) : Prop :=
  ∀ path x, v.find? path = some x → x.const = true → x.value ≠ "" → m.name x.name = m.number (Text.decimal x.value)

theorem respects_of_visible {m : Meaning V} (noGlobals : ∀ name, v.context.globals.get? name = none)
    (h : ∀ x ∈ v.scope.top.visible, x.const = true → x.value ≠ "" → m.name x.name = m.number (Text.decimal x.value)) :
    m.Respects v := by
  intro path x found
  have shown : v.scope.find? (v.context.spell v.scope path) = some x := by
    simpa [View.find?, Context.resolvePath?, Context.resolve?, noGlobals] using found
  exact h x (List.mem_of_find?_eq_some shown)

theorem eval_numeral (ty : Ty) : m.eval (.numeral t text ty) = some (m.number (Text.decimal text)) := by
  simp [eval, Node.numeral, form, Form.map]

theorem eval_name (x : String) (flat : Bool) : m.eval (.node t ty (.name x flat)) = some (m.name x) := by
  simp [eval, form, Form.map]

theorem eval_binary (op : Char) (left right : Node) :
    m.eval (.node t ty (.binary op left right)) = (m.eval left).bind fun a => (m.eval right).map fun b =>
      m.number (operate ty.isFloat op (m.value a) (m.value b)) := by
  simp [eval, form, Form.map]

theorem eval_deref : m.eval (.node t ty (.deref n)) = (m.eval n).map m.deref := by
  simp [eval, form, Form.map]

theorem eval_address : m.eval (.node t ty (.address n)) = (m.eval n).map m.address := by
  simp [eval, form, Form.map]

theorem eval_index (i : Node) :
    m.eval (.node t ty (.index n i)) = (m.eval n).bind fun a => (m.eval i).map fun b => m.index a b := by
  simp [eval, form, Form.map]

theorem eval_call (f : String) (args : List Node)
    (h : args.map (fun a => m.eval a) = xs.map some) : m.eval (.node t ty (.call f args)) = some (m.call f xs) := by
  have shown : m.eval (.node t ty (.call f args)) = m.form ty (.call f (args.map fun a => m.eval a)) := by
    simp [eval, Form.map]
  rw [shown, h]
  simp [form, List.reduceOption]

theorem eval_number
    (h : m.eval expr = some x) : m.eval (.node t ty (.number text expr)) = some x := by
  have shown : m.eval (.node t ty (.number text expr)) = m.form ty (.number text (m.eval expr)) := by
    simp [eval, Form.map]
  rw [shown, h]
  rfl

end Meaning

end Impulse
