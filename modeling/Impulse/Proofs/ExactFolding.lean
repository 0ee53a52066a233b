import Impulse.Arith.Reduce
import Impulse.Proofs.Formulas
import Mathlib.Data.List.ReduceOption

/-!
# Folding is exact

If folding is on, a formula over numerals and integer constants becomes a number without arithmetic, and that number is
the exact value of the formula, however it is spaced. The only way to fail is to divide by zero. Every operator whose
result does not fit into a machine word raises one warning.
-/

namespace Impulse

open List

variable {ty : Ty} (e : Formula)
  (op : Operation)

/-- The value of a constant of an integer type, if it is known. -/
def View.integer? (v : View) (name : String) : Option Int :=
  (v.find? name).bind fun x => if x.const && x.ty.isInteger then Text.integer? x.value else none

def exceeds (wordSize : Nat) (z : Int) : Bool :=
  decide (z < -Int.pow 2 (8 * wordSize - 1)) || decide (Int.pow 2 (8 * wordSize) - 1 < z)

/-- One warning for each result that does not fit. -/
def overflowNotices (t : Token) (wordSize : Nat) (results : List Int) : List Notice :=
  (results.filter (exceeds wordSize)).map fun z => ⟨t, .overflow z (8 * wordSize)⟩

theorem overflowNotices_append (t : Token) (wordSize : Nat) (zs zs' : List Int) :
    overflowNotices t wordSize (zs ++ zs') = overflowNotices t wordSize zs ++ overflowNotices t wordSize zs' := by
  unfold overflowNotices
  rw [filter_append, map_append]

namespace Formula

def upToNone (results : List (Option Int)) : List Int :=
  (results.takeWhile Option.isSome).reduceOption

/-- The results of the operators of a formula, up to the first that has none. -/
def results (known : String → Option Int) (e : Formula) : List Int :=
  upToNone (e.operators.map (·.value? known))

theorem upToNone_of_all (all : ∀ r ∈ rs, r.isSome = true) : upToNone rs = rs.reduceOption := by
  have whole : (rs ++ []).takeWhile Option.isSome = rs ++ [].takeWhile Option.isSome := takeWhile_append_of_pos all
  rw [takeWhile_nil, append_nil] at whole
  rw [upToNone, whole]

theorem upToNone_append (all : ∀ r ∈ rs, r.isSome = true) (rs' : List (Option Int)) :
    upToNone (rs ++ rs') = upToNone rs ++ upToNone rs' := by
  rw [upToNone_of_all all, upToNone, takeWhile_append_of_pos all, reduceOption_append]
  rfl

theorem upToNone_append_of_none (some : ∃ r ∈ rs, r.isSome = false) (rs' : List (Option Int)) :
    upToNone (rs ++ rs') = upToNone rs := by
  induction rs with
  | nil => simp at some
  | cons r rs ih =>
    cases r with
    | none => rfl
    | some a =>
      have further : ∃ r ∈ rs, r.isSome = false := by simpa using some
      have step (rs : List (Option Int)) : upToNone (.some a :: rs) = a :: upToNone rs := by
        simp [upToNone]
      rw [cons_append, step, step, ih further]

theorem value?_isSome_iff (h : ∀ name ∈ e.constants, (known name).isSome = true) :
    (e.value? known).isSome = true ↔ ∀ part ∈ e.operators, (part.value? known).isSome = true := by
  induction e with
  | numeral first rest => simp [value?, operators]
  | constant name => simpa [value?, operators] using h name mem_cons_self
  | group inner ih => exact ih h
  | negate operand ih =>
    have last : ((negate operand).value? known).isSome = (operand.value? known).isSome := by
      rw [value?]
      cases operand.value? known <;> rfl
    rw [operators, forall_mem_append, ← ih h]
    simp [last]
  | binary op left right ihl ihr =>
    obtain ⟨hl, hr⟩ := forall_mem_append.mp h
    rw [operators, forall_mem_append, forall_mem_append, ← ihl hl, ← ihr hr]
    constructor
    · intro some
      refine ⟨?_, by simpa using some⟩
      rw [value?] at some
      cases hl : left.value? known with
      | none => simp [hl] at some
      | some a =>
        cases hr : right.value? known with
        | none => simp [hl, hr] at some
        | some b => exact ⟨rfl, rfl⟩
    · rintro ⟨-, some⟩
      simpa using some

theorem value?_eq_none_iff (h : ∀ name ∈ e.constants, (known name).isSome = true) :
    e.value? known = none ↔ e.DividesByZero known := by
  induction e with
  | numeral first rest => simp [value?, operators, DividesByZero]
  | constant name =>
    have some := h name mem_cons_self
    rw [value?, ← Option.not_isSome_iff_eq_none]
    simp [some, operators, DividesByZero]
  | group inner ih => exact ih h
  | negate operand ih =>
    have same : (negate operand).DividesByZero known ↔ operand.DividesByZero known := by
      simp [DividesByZero, operators]
    rw [same, ← ih h, value?]
    cases operand.value? known <;> simp
  | binary op left right ihl ihr =>
    obtain ⟨hl, hr⟩ := forall_mem_append.mp h
    have parts : (binary op left right).DividesByZero known ↔ left.DividesByZero known ∨ right.DividesByZero known ∨
        op.divides = true ∧ right.value? known = some 0 := by
      simp only [DividesByZero, operators, mem_append, mem_singleton, binary.injEq]
      constructor
      · rintro ⟨op', l, r, (inside | inside) | ⟨rfl, rfl, rfl⟩, divides, zero⟩
        · exact .inl ⟨op', l, r, inside, divides, zero⟩
        · exact .inr (.inl ⟨op', l, r, inside, divides, zero⟩)
        · exact .inr (.inr ⟨divides, zero⟩)
      · rintro (⟨op', l, r, inside, rest⟩ | ⟨op', l, r, inside, rest⟩ | rest)
        · exact ⟨op', l, r, .inl (.inl inside), rest⟩
        · exact ⟨op', l, r, .inl (.inr inside), rest⟩
        · exact ⟨op, left, right, .inr ⟨rfl, rfl, rfl⟩, rest⟩
    rw [parts, ← ihl hl, ← ihr hr, value?]
    cases left.value? known with
    | none => simp
    | some a =>
      cases right.value? known with
      | none => simp
      | some b => simp [Operation.on?_eq_none]

theorem results_of_value? {e : Formula} (h : ∀ name ∈ e.constants, (known name).isSome = true)
    (value : e.value? known = some z) : e.results known = e.operators.filterMap (·.value? known) := by
  have all := (value?_isSome_iff e h).mp (by rw [value]; rfl)
  rw [results, upToNone_of_all (by simpa using all), List.reduceOption, filterMap_map]
  rfl

theorem upToNone_operators {e : Formula} (h : ∀ name ∈ e.constants, (known name).isSome = true)
    (rs : List (Option Int)) :
    upToNone (e.operators.map (·.value? known) ++ rs)
      = e.results known ++ if (e.value? known).isSome then upToNone rs else [] := by
  split
  · next value =>
    refine upToNone_append ?_ rs
    simpa using (value?_isSome_iff e h).mp value
  · next none =>
    rw [append_nil]
    refine upToNone_append_of_none ?_ rs
    rw [value?_isSome_iff e h] at none
    simpa using none

theorem results_negate (operand : Formula) (h : ∀ name ∈ operand.constants, (known name).isSome = true) :
    (negate operand).results known = operand.results known ++ ((negate operand).value? known).toList := by
  unfold results
  rw [operators, map_append, upToNone_operators h]
  congr 1
  rw [map_singleton, value?]
  cases operand.value? known <;> rfl

theorem results_binary (left right : Formula)
    (h : ∀ name ∈ (binary op left right).constants, (known name).isSome = true) :
    (binary op left right).results known = left.results known ++ if (left.value? known).isSome then
      right.results known ++ ((binary op left right).value? known).toList else [] := by
  obtain ⟨hl, hr⟩ := forall_mem_append.mp h
  rw [results, operators, map_append, map_append, append_assoc, upToNone_operators hl,
    upToNone_operators hr, map_singleton, value?]
  cases left.value? known with
  | none => rfl
  | some a =>
    cases right.value? known with
    | none => simp
    | some b =>
      cases h : op.on? a b <;> simp [upToNone, h]

end Formula

namespace Infer

variable {f : α → Infer β}

theorem run_bind (run : x v notices = .ok a notices') : (x >>= f) v notices = f a v notices' := by
  show EStateM.bind (x v) (fun a => f a v) notices = _
  rw [EStateM.bind, run]

theorem run_bind_error {e : Stop} (run : x v notices = .error e notices') :
    (x >>= f) v notices = .error e notices' := by
  show EStateM.bind (x v) (fun a => f a v) notices = _
  rw [EStateM.bind, run]

/-- A computation gives a number of the given value, or there is none and it ends with a division by zero. The results
on the way raise their warnings. -/
structure Folds (v : View) (t : Token) (x : Infer Node) (value : Option Int) (results : List Int) : Prop where
  some (z : Int) (h : value = some z) (notices : List Notice) : ∃ text ty, Text.integer? text = .some z ∧
    ty.isInteger = true ∧ x v notices
      = .ok (.numeral t text ty) (notices ++ overflowNotices t v.settings.wordSize results)
  none (h : value = none) (notices : List Notice) : x v notices
    = .error (.problem t (.literal .divisionByZero)) (notices ++ overflowNotices t v.settings.wordSize results)

end Infer

namespace Arith

open Infer

theorem compute?_sign (a b : Int) : compute? op.sign a b = op.on? a b := by
  cases op <;> simp [compute?, Operation.sign, Operation.on?]

theorem fits_eq (wordSize : Nat) (z : Int) : fits (wordSize * 8) z = !exceeds wordSize z := by
  unfold fits exceeds
  rw [Nat.mul_comm wordSize 8, Bool.eq_iff_iff]
  simp only [Bool.and_eq_true, decide_eq_true_eq, Bool.not_eq_true', Bool.or_eq_false_iff, decide_eq_false_iff_not]
  omega

theorem isArithmetic_of_isInteger (h : ty.isInteger = true) : ty.isArithmetic = true ∧ ty.resolved = ty := by
  cases ty with
  | prim p =>
    refine ⟨?_, rfl⟩
    have integer : p.isInteger = true := h
    simp [Ty.isArithmetic, Ty.resolved, Ty.isPlaceholder, Ty.isNumeric, Primitive.isNumeric, integer]
  | _ => cases h

theorem integer?_numeral {text : String} (h : Text.integer? text = some z) (ty : Ty) :
    (Node.numeral t text ty).integer? = some z := by
  show (if Text.contains text '.' then none else Text.integer? text) = some z
  rw [Text.contains_point h, h]
  rfl

theorem requireNumeric_run (op : Char) (text : String) (integer : ty.isInteger = true) (notices : List Notice) :
    requireNumeric t op (.numeral t text ty) v notices = .ok () notices := by
  have numeric : (Node.numeral t text ty).ty.isArithmetic = true := (isArithmetic_of_isInteger integer).1
  unfold requireNumeric
  rw [if_pos numeric]
  rfl

theorem resultTy_numerals (text text' : String) {ty' : Ty} (integer : ty.isInteger = true)
    (integer' : ty'.isInteger = true) : resultTy (.numeral t text ty) (.numeral t text' ty') = ty := by
  have primitive {ty : Ty} (integer : ty.isInteger = true) : ∃ p : Primitive, ty = .prim p ∧ p.isFloat = false := by
    cases ty with
    | prim p =>
      have apart : ∀ p : Primitive, p.isInteger = true → p.isFloat = false := by
        intro p
        cases p <;> decide
      exact ⟨p, rfl, apart p integer⟩
    | _ => cases integer
  obtain ⟨p, rfl, whole⟩ := primitive integer
  obtain ⟨q, rfl, whole'⟩ := primitive integer'
  simp [resultTy, Node.numeral, Node.ty, Ty.resolved, Node.isNumber, whole, whole']

theorem foldOp_folds (a b : Int) (integer : ty.isInteger = true) :
    Folds v t (foldOp t op.sign ty a b) (op.on? a b) (op.on? a b).toList := by
  constructor
  · intro z value notices
    refine ⟨toString z, ty, Text.integer?_toString z, integer, ?_⟩
    have seen : (read : Infer View) v notices = .ok v notices := rfl
    unfold foldOp
    rw [compute?_sign, value]
    dsimp only
    rw [run_bind seen, fits_eq, Bool.not_not]
    cases big : exceeds v.settings.wordSize z with
    | false =>
      have nothing : overflowNotices t v.settings.wordSize (some z).toList = [] := by
        simp [overflowNotices, big]
      rw [nothing, append_nil]
      rfl
    | true =>
      have one : overflowNotices t v.settings.wordSize (some z).toList =
          [⟨t, .overflow z (8 * v.settings.wordSize)⟩] := by
        simp [overflowNotices, big]
      rw [one, Nat.mul_comm v.settings.wordSize 8]
      rfl
  · intro value notices
    have nothing : overflowNotices t v.settings.wordSize (none : Option Int).toList = [] := rfl
    unfold foldOp
    rw [compute?_sign, value, nothing, append_nil]
    rfl

theorem combine_folds (fold : v.settings.feature .fold = true) (op : Operation) (left : Text.integer? text = some a) (right : Text.integer? text' = some b)
    (integer : ty.isInteger = true) (integer' : ty'.isInteger = true) :
    Folds v t (combine t op.sign (.numeral t text ty) (.numeral t text' ty')) (op.on? a b) (op.on? a b).toList := by
  have run (notices : List Notice) : combine t op.sign (.numeral t text ty) (.numeral t text' ty') v notices
      = foldOp t op.sign ty a b v notices := by
    unfold combine
    rw [run_bind (requireNumeric_run _ _ integer _), run_bind (requireNumeric_run _ _ integer' _),
      resultTy_numerals text text' integer integer']
    rw [run_bind (show (read : Infer View) v notices = .ok v notices from rfl)]
    simp only [fold, if_true, integer?_numeral left, integer?_numeral right]
  obtain ⟨some, none⟩ : Folds v t (foldOp t op.sign ty a b) (op.on? a b) (op.on? a b).toList :=
    foldOp_folds op a b integer
  exact ⟨fun z h notices => run notices ▸ some z h notices, fun h notices => run notices ▸ none h notices⟩

end Arith

namespace Infer

theorem Folds.bind (first : Folds v t x (.some z) results)
    (second : ∀ text ty, Text.integer? text = .some z → ty.isInteger = true →
      Folds v t (f (.numeral t text ty)) value results') : Folds v t (x >>= f) value (results ++ results') := by
  have start (notices : List Notice) : ∃ text ty, Text.integer? text = .some z ∧ ty.isInteger = true ∧
      (x >>= f) v notices
        = f (.numeral t text ty) v (notices ++ overflowNotices t v.settings.wordSize results) := by
    obtain ⟨text, ty, read, integer, run⟩ := first.some z rfl notices
    exact ⟨text, ty, read, integer, run_bind run⟩
  constructor
  · intro z' h notices
    obtain ⟨text, ty, read, integer, run⟩ := start notices
    rw [run, overflowNotices_append, ← append_assoc]
    exact (second text ty read integer).some z' h _
  · intro h notices
    obtain ⟨text, ty, read, integer, run⟩ := start notices
    rw [run, overflowNotices_append, ← append_assoc]
    exact (second text ty read integer).none h _

theorem Folds.bind_none (h : Folds v t x .none results) :
    Folds v t (x >>= f) .none results :=
  ⟨fun z some => (by cases some), fun _ notices => run_bind_error (h.none rfl notices)⟩

end Infer

namespace Formula

open Arith Infer

theorem folds_encloseTree {tree : Arith} {results : List Int} (needed : Bool)
    (h : Folds v t (tree.reduce t) value results) : Folds v t ((encloseTree needed tree).reduce t) value results := by
  cases needed with
  | false => exact h
  | true =>
    have same : (Arith.paren tree true).reduce t = tree.reduce t := by
      rw [Arith.reduce]
      exact bind_pure (tree.reduce t)
    rwa [encloseTree, if_pos rfl, same]

theorem integer?_numeralText (first : Fin 10) (rest : List (Fin 10)) : Text.integer? (numeralText first rest)
    = some ((first :: rest).foldl (fun n d => n * 10 + d.val) 0 : Nat) := by
  have text : (numeralText first rest).toList = (first :: rest).map digitChar := String.toList_ofList
  have digits (ds : List (Fin 10)) (acc : Nat) :
      Text.digitsValue? acc (ds.map digitChar) = some (ds.foldl (fun n d => n * 10 + d.val) acc) := by
    induction ds generalizing acc with
    | nil => rfl
    | cons d ds ih =>
      obtain ⟨-, -, digit, value⟩ := digitChar_cases d
      rw [map_cons, Text.digitsValue?, if_pos digit, value, ih, foldl_cons]
  have other (c : Char) (sign : Text.isAsciiDigit c = false) : (numeralText first rest).toList.head? ≠ some c := by
    intro head
    rw [text, map_cons, List.head?_cons] at head
    rw [← Option.some.inj head, (digitChar_cases first).2.2.1] at sign
    cases sign
  rw [Text.integer?_unsigned (other '-' (by decide)) (other '+' (by decide)), text, Text.natural?_eq (by simp), digits]
  rfl

theorem nameNode_run (fold : v.settings.feature .fold = true) {name : String}
    (known : v.integer? name = some z) (notices : List Notice) :
    ∃ text ty, Text.integer? text = some z ∧ ty.isInteger = true ∧
      nameNode t name v notices = .ok (.numeral t text ty) notices := by
  unfold View.integer? at known
  obtain ⟨x, found, value⟩ := Option.bind_eq_some_iff.mp known
  split at value
  · next const =>
    obtain ⟨const, integer⟩ := Bool.and_eq_true_iff.mp const
    refine ⟨x.value, x.ty, value, integer, ?_⟩
    have nonempty : x.value ≠ "" := by
      intro empty
      rw [empty] at value
      cases value
    have seen : (read : Infer View) v notices = .ok v notices := rfl
    unfold nameNode
    rw [run_bind seen, found]
    dsimp only
    rw [if_pos (by simp [const, nonempty, fold])]
    rfl
  · cases value

theorem reduce_tree (fold : v.settings.feature .fold = true) (e : Formula)
    (known : ∀ name ∈ e.constants, (v.integer? name).isSome = true) :
    Folds v t (e.tree.reduce t) (e.value? v.integer?) (e.results v.integer?) := by
  induction e with
  | numeral first rest =>
    refine ⟨fun z value notices => ?_, fun none => by cases none⟩
    have read := integer?_numeralText first rest
    obtain rfl := Option.some.inj value
    refine ⟨numeralText first rest, .int, read, rfl, ?_⟩
    rw [tree, Arith.reduce, Text.contains_point read, results, operators]
    show _ = EStateM.Result.ok _ (notices ++ [])
    rw [append_nil]
    rfl
  | constant name =>
    have some := known name mem_cons_self
    refine ⟨fun z value notices => ?_, fun none => ?_⟩
    · obtain ⟨text, ty, read, integer, run⟩ := nameNode_run (t := t) fold value notices
      refine ⟨text, ty, read, integer, ?_⟩
      rw [tree, Arith.reduce, run, results, operators]
      show _ = EStateM.Result.ok _ (notices ++ [])
      rw [append_nil]
    · rw [show v.integer? name = .none from none] at some
      cases some
  | group inner ih => exact folds_encloseTree true (ih known)
  | negate operand ih =>
    have inner := folds_encloseTree (operand.level < 2) (ih known)
    rw [results_negate operand known, value?, tree, Arith.reduce]
    cases value : operand.value? v.integer? with
    | none =>
      rw [value] at inner
      rw [show Option.toList (Option.bind none _) = [] from rfl, append_nil]
      exact inner.bind_none
    | some z =>
      rw [value] at inner
      refine inner.bind fun text ty read integer => ?_
      have zero : Text.integer? "0" = some 0 := by decide
      exact combine_folds fold .sub zero read rfl integer
  | binary op left right ihl ihr =>
    obtain ⟨hl, hr⟩ := forall_mem_append.mp known
    have first := folds_encloseTree (left.level < op.level) (ihl hl)
    have second := folds_encloseTree (right.level ≤ op.level) (ihr hr)
    rw [results_binary op left right known, value?, tree, Arith.reduce]
    cases value : left.value? v.integer? with
    | none =>
      rw [value] at first
      exact append_nil _ ▸ first.bind_none
    | some a =>
      rw [value] at first
      refine first.bind fun text ty read integer => ?_
      cases value' : right.value? v.integer? with
      | none =>
        rw [value'] at second
        exact append_nil _ ▸ second.bind_none
      | some b =>
        rw [value'] at second
        exact second.bind fun text' ty' read' integer' => combine_folds fold op read read' integer integer'

end Formula

/-- What the text of a formula becomes, if folding is on: a number without arithmetic that is the exact value, with one
warning for each operator whose result does not fit into a word, or the problem that something is divided by zero. -/
theorem Infer.arithmetic_exact {v : View} {e : Formula} {raw : String} (fold : v.settings.feature .fold = true)
    (known : ∀ name ∈ e.constants, Arith.IsWord name ∧ (v.integer? name).isSome = true)
    (written : Arith.Spaced e.units raw.toList) (t : Token) (want : Ty) (notices : List Notice) :
    (¬e.DividesByZero v.integer? → ∃ z text ty, e.value? v.integer? = some z ∧ Text.integer? text = some z ∧
      Infer.arithmetic t raw want v notices = .ok (.numeral t text ty) (notices ++
        overflowNotices t v.settings.wordSize (e.operators.filterMap (·.value? v.integer?)))) ∧
    (e.DividesByZero v.integer? → Infer.arithmetic t raw want v notices
      = .error (.problem t (.literal .divisionByZero)) (notices ++
        overflowNotices t v.settings.wordSize (e.results v.integer?))) ∧
    (Problem.literal .divisionByZero).message = "Division by zero in literal" := by
  have integers : ∀ name ∈ e.constants, (v.integer? name).isSome = true := fun name h => (known name h).2
  have scanned : Arith.scan raw.toList = .ok e.units :=
    Arith.scan_spaced written (e.plain_units fun name h => (known name h).1) e.isChain_units
  have folds : Folds v t (e.tree.reduce t) (e.value? v.integer?) (e.results v.integer?) :=
    Formula.reduce_tree fold e integers
  refine ⟨fun nonzero => ?_, fun zero => ?_, rfl⟩
  · cases value : e.value? v.integer? with
    | none => exact absurd ((Formula.value?_eq_none_iff e integers).mp value) nonzero
    | some z =>
      obtain ⟨text, ty, read, -, run⟩ := folds.some z value notices
      rw [Formula.results_of_value? integers value] at run
      unfold Infer.arithmetic
      rw [scanned]
      dsimp only
      rw [Formula.sum_units, run_bind run]
      by_cases numeric : want.resolved.isNumeric = true
      · refine ⟨z, text, want.resolved, rfl, read, ?_⟩
        show (if want.resolved.isNumeric = true then pure (.numeral t text want.resolved) else _ : Infer Node) v _ = _
        rw [if_pos numeric]
        rfl
      · refine ⟨z, text, ty, rfl, read, ?_⟩
        show (if want.resolved.isNumeric = true then _ else pure (.numeral t text ty) : Infer Node) v _ = _
        rw [if_neg numeric]
        rfl
  · have run := folds.none ((Formula.value?_eq_none_iff e integers).mpr zero) notices
    unfold Infer.arithmetic
    rw [scanned]
    dsimp only
    rw [Formula.sum_units, run_bind_error run]

/-- A constant below zero behind a minus sign, a remainder, and two results that do not fit into 32 bits. -/
theorem Infer.arithmetic_exact_remainder :
    let v : View := {
      settings := { wordSize := 4 }
      context := {}
      scope := { top := { kind := .global, visible := [{ name := "N", ty := .int, const := true, value := "-7" }] } }
      last := default }
    v.settings.feature .fold = true ∧ v.integer? "N" = some (-7) ∧
    ∃ text ty, Text.integer? text = some (-4294967294) ∧
      Infer.arithmetic default "2 *-N%4 - ( 65536*65536) " .int v [] = .ok (.numeral default text ty)
        [⟨default, .overflow 4294967296 32⟩, ⟨default, .overflow (-4294967294) 32⟩] := by
  intro v
  have known : v.integer? "N" = some (-7) := by decide +kernel
  let large : Formula := .numeral 6 [5, 5, 3, 6]
  let e : Formula := .binary .sub
    (.binary .mod (.binary .mul (.numeral 2 []) (.negate (.constant "N"))) (.numeral 4 []))
    (.group (.binary .mul large large))
  have constants : ∀ name ∈ e.constants, Arith.IsWord name ∧ (v.integer? name).isSome = true := by
    intro name h
    obtain rfl : name = "N" := by simpa [e, large, Formula.constants] using h
    exact ⟨⟨'N', [], rfl, .inl (by decide), by simp⟩, by rw [known]; rfl⟩
  have space : ∀ c ∈ [' '], Text.isBlank c = true := forall_mem_singleton.mpr (by decide)
  have written : Arith.Spaced e.units "2 *-N%4 - ( 65536*65536) ".toList :=
    @Arith.Spaced.cons [] _ _ (by simp) (.number "2") <|
    @Arith.Spaced.cons [' '] _ _ space (.sign '*') <|
    @Arith.Spaced.cons [] _ _ (by simp) (.sign '-') <|
    @Arith.Spaced.cons [] _ _ (by simp) (.name "N") <|
    @Arith.Spaced.cons [] _ _ (by simp) (.sign '%') <|
    @Arith.Spaced.cons [] _ _ (by simp) (.number "4") <|
    @Arith.Spaced.cons [' '] _ _ space (.sign '-') <|
    @Arith.Spaced.cons [' '] _ _ space (.sign '(') <|
    @Arith.Spaced.cons [' '] _ _ space (.number "65536") <|
    @Arith.Spaced.cons [] _ _ (by simp) (.sign '*') <|
    @Arith.Spaced.cons [] _ _ (by simp) (.number "65536") <|
    @Arith.Spaced.cons [] _ _ (by simp) (.sign ')') <| @Arith.Spaced.nil [' '] space
  have value : e.value? v.integer? = some (-4294967294) := by decide +kernel
  have nonzero : ¬e.DividesByZero v.integer? := by
    rw [← Formula.value?_eq_none_iff e fun name h => (constants name h).2, value]
    simp
  obtain ⟨z, text, ty, value', read, run⟩ :=
    (Infer.arithmetic_exact rfl constants written default .int []).1 nonzero
  obtain rfl := Option.some.inj (value.symm.trans value')
  have large : (e.operators.filterMap (·.value? v.integer?)).filter (exceeds 4) = [4294967296, -4294967294] := by
    decide +kernel
  have raised : overflowNotices default v.settings.wordSize (e.operators.filterMap (·.value? v.integer?))
      = [⟨default, .overflow 4294967296 32⟩, ⟨default, .overflow (-4294967294) 32⟩] :=
    congrArg (List.map _) large
  rw [raised] at run
  exact ⟨rfl, known, text, ty, read, run⟩

end Impulse
