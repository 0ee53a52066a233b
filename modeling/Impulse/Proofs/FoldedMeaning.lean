import Impulse.Proofs.Meaning
import Impulse.Proofs.Reduction
import Impulse.Proofs.Recheck
import Impulse.Proofs.Substitution

/-!
# Folding and meaning

A bracket group is read twice, with folding and without it. The two results mean the same under two conditions: no two
known integers are divided as fractional numbers with a remainder, and a quotient with a call, a dereference or an index
in it is fractional in both results or in neither. The second condition fails only where a call binds the placeholder of
its result type. Both conditions are needed: half of three is one or three halves, and a placeholder is bound otherwise
where a name is replaced by its value.
-/

namespace Impulse

open List

variable {n : Node}

def View.folding (v : View) (on : Bool) : View :=
  { v with settings := v.settings.setFeature .fold on }

theorem View.feature_folding (v : View) (on : Bool) : (v.folding on).settings.feature .fold = on := by
  simp [View.folding, Settings.setFeature]

namespace Ty

theorem isFloat_prim (p : Primitive) : (Ty.prim p).isFloat = p.isFloat := by
  cases p <;> rfl

theorem isArithmetic_cases {t : Ty} (h : t.isArithmetic = true) :
    (∃ p, t.resolved = .prim p) ∨ ∃ x, t.resolved = .placeholder x := by
  unfold isArithmetic at h
  cases form : t.resolved with
  | prim p => exact .inl ⟨p, rfl⟩
  | placeholder x => exact .inr ⟨x, rfl⟩
  | absent | pointer | array | named | view => simp [form, isPlaceholder, isNumeric] at h

/-- Two types are the same, or both can be computed with and are fractional or not. -/
def Alike (s t : Ty) : Prop :=
  s.resolved = t.resolved ∨
    s.isArithmetic = true ∧ t.isArithmetic = true ∧ s.resolved.isFloat = t.resolved.isFloat

theorem Alike.isFloat_eq {s t : Ty} (h : s.Alike t) : s.resolved.isFloat = t.resolved.isFloat := by
  rcases h with same | ⟨_, _, same⟩
  · rw [same]
  · exact same

theorem Alike.of_element? {s t elem : Ty} (h : s.Alike t) (element : s.resolved.element? = some elem) :
    s.resolved = t.resolved := by
  rcases h with same | ⟨number, _, _⟩
  · exact same
  · rcases isArithmetic_cases number with ⟨p, ty⟩ | ⟨x, ty⟩ <;> rw [ty] at element <;> cases element

theorem subst_eq_self (b : Bindings) {t : Ty} (h : t.hasPlaceholder = false) : t.subst b = t := by
  rw [hasPlaceholder_eq_false_iff, eq_nil_iff_forall_not_mem] at h
  exact subst_of_unbound fun x mem => absurd mem (h x)

end Ty

def Form.isReading {α : Type} : Form α → Bool
  | deref _ => true
  | index _ _ => true
  | call _ _ => true
  | _ => false

def Form.isQuotient {α : Type} : Form α → Bool
  | binary op _ _ => op == '/'
  | _ => false

namespace Node

def has (p : Form Node → Bool) : Node → Bool
  | absent => false
  | node _ _ form => p form

theorem has_node (p : Form Node → Bool) (t : Token) (ty : Ty) (form : Form Node) : (node t ty form).has p = p form :=
  rfl

def reads (n : Node) : Bool :=
  n.walk.any (has Form.isReading)

/-- Which quotients of the node are fractional, among those with a call, a dereference or an index in them. -/
def divisions (n : Node) : List Bool :=
  (n.walk.filter fun k => k.has Form.isQuotient && k.reads).map isFloat

variable (t : Token) (ty : Ty)

theorem reads_node (form : Form Node) : (node t ty form).reads = (form.isReading || form.children.any reads) := by
  rw [reads, walk_node, any_cons, any_flatMap]
  rfl

theorem divisions_node (form : Form Node) : (node t ty form).divisions =
    (if form.isQuotient && (node t ty form).reads then [ty.resolved.isFloat] else []) ++
      form.children.flatMap divisions := by
  have rest : ((form.children.flatMap walk).filter fun k => k.has Form.isQuotient && k.reads).map isFloat
      = form.children.flatMap divisions := by
    rw [filter_flatMap, map_flatMap]
    rfl
  rw [divisions, walk_node, filter_cons, has_node]
  by_cases counted : (form.isQuotient && (node t ty form).reads) = true
  · rw [if_pos counted, if_pos counted, map_cons, rest]
    rfl
  · rw [if_neg counted, if_neg counted, rest]
    rfl

@[simp] theorem reads_absent : absent.reads = false :=
  rfl

@[simp] theorem divisions_absent : absent.divisions = [] :=
  rfl

theorem reads_numeral (text : String) : (numeral t text ty).reads = false := by
  simp [numeral, reads_node, Form.isReading, Form.children]

theorem divisions_numeral (text : String) : (numeral t text ty).divisions = [] := by
  simp [numeral, divisions_node, Form.isQuotient, Form.children]

theorem reads_binary (op : Char) (left right : Node) :
    (node t ty (.binary op left right)).reads = (left.reads || right.reads) := by
  simp [reads_node, Form.isReading, Form.children]

theorem divisions_binary (op : Char) (left right : Node) :
    (node t ty (.binary op left right)).divisions =
      (if op == '/' && (left.reads || right.reads) then [ty.resolved.isFloat] else []) ++
        (left.divisions ++ right.divisions) := by
  rw [divisions_node, reads_binary]
  simp [Form.isQuotient, Form.children]

theorem divisions_of_not_isQuotient (h : form.isQuotient = false) :
    (node t ty form).divisions = form.children.flatMap divisions := by
  rw [divisions_node, h]
  rfl

/-- If the node is a number, there is no arithmetic in it. -/
def Bare (n : Node) : Prop :=
  ∀ t ty text expr, n = node t ty (.number text expr) → expr = .absent

theorem bare_numeral (t : Token) (text : String) (ty : Ty) : (numeral t text ty).Bare := by
  intro _ _ _ _ h
  exact (Form.number.inj (node.inj h).2.2).2.symm

theorem bare_of_ne_number {t : Token} {ty : Ty} (h : ∀ text expr, form ≠ .number text expr) : (node t ty form).Bare :=
  fun _ _ text expr same => absurd (node.inj same).2.2 (h text expr)

theorem integer?_eq_some (h : n.integer? = some z) :
    ∃ t ty text, n = numeral t text ty ∧ Text.integer? text = some z := by
  unfold Node.integer? at h
  split at h
  · split at h
    · cases h
    · exact ⟨_, _, _, rfl, h⟩
  · cases h

theorem closed_of_integer? (h : n.integer? = some z) : n.reads = false ∧ n.divisions = [] := by
  obtain ⟨t, ty, text, rfl, _⟩ := integer?_eq_some h
  exact ⟨reads_numeral t ty text, divisions_numeral t ty text⟩

end Node

theorem Meaning.eval_of_integer? {V : Type} (m : Meaning V) (h : n.integer? = some z) :
    m.eval n = some (m.number z) := by
  obtain ⟨t, ty, text, rfl, read⟩ := Node.integer?_eq_some h
  rw [m.eval_numeral, Text.decimal_of_integer? read]

namespace Arith

/-- The integer that folding computes for a tree, if there is one, and whether its type is fractional. -/
def known? (v : View) : Arith → Option (Int × Bool)
  | number text => (Text.integer? text).map fun z => (z, false)
  | name path => (v.find? path).bind fun x =>
    if x.const then (Text.integer? x.value).map fun z => (z, x.ty.resolved.isFloat) else none
  | negate operand => (operand.known? v).map fun a => (0 - a.1, a.2)
  | binary op left right => (left.known? v).bind fun a => (right.known? v).bind fun b =>
    (compute? op a.1 b.1).map fun z => (z, a.2 || b.2)
  | paren inner _ => inner.known? v
  | _ => none

/-- Known integers are divided as fractional numbers only if nothing remains. -/
inductive DividesExactly (v : View) : Arith → Prop
  | number (text : String) : DividesExactly v (.number text)
  | name (text : String) : DividesExactly v (.name text)
  | call (f : String) {args : List Arith} (closed : Bool) (h : ∀ a ∈ args, DividesExactly v a) :
      DividesExactly v (.call f args closed)
  | negate {a : Arith} (h : DividesExactly v a) : DividesExactly v (.negate a)
  | binary (op : Char) {a b : Arith} (ha : DividesExactly v a) (hb : DividesExactly v b)
      (exact : op = '/' → ∀ x y, a.known? v = some x → b.known? v = some y → (x.2 || y.2) = true → y.1 ∣ x.1) :
      DividesExactly v (.binary op a b)
  | deref {a : Arith} (h : DividesExactly v a) : DividesExactly v (.deref a)
  | index {a b : Arith} (closed : Bool) (ha : DividesExactly v a) (hb : DividesExactly v b) :
      DividesExactly v (.index a b closed)
  | paren {a : Arith} (closed : Bool) (h : DividesExactly v a) : DividesExactly v (.paren a closed)
  | broken (p : Problem) : DividesExactly v (.broken p)
  | stuck : DividesExactly v .stuck

/-- No call has a placeholder in its result type. -/
inductive CallsConcrete (v : View) : Arith → Prop
  | number (text : String) : CallsConcrete v (.number text)
  | name (text : String) : CallsConcrete v (.name text)
  | call {f : String} {args : List Arith} (closed : Bool) (h : ∀ a ∈ args, CallsConcrete v a)
      (concrete : ∀ sig, v.Calls f sig → sig.ret.hasPlaceholder = false) : CallsConcrete v (.call f args closed)
  | negate {a : Arith} (h : CallsConcrete v a) : CallsConcrete v (.negate a)
  | binary (op : Char) {a b : Arith} (ha : CallsConcrete v a) (hb : CallsConcrete v b) :
      CallsConcrete v (.binary op a b)
  | deref {a : Arith} (h : CallsConcrete v a) : CallsConcrete v (.deref a)
  | index {a b : Arith} (closed : Bool) (ha : CallsConcrete v a) (hb : CallsConcrete v b) :
      CallsConcrete v (.index a b closed)
  | paren {a : Arith} (closed : Bool) (h : CallsConcrete v a) : CallsConcrete v (.paren a closed)
  | broken (p : Problem) : CallsConcrete v (.broken p)
  | stuck : CallsConcrete v .stuck

theorem known?_negate (v : View) (a : Arith) : (negate a).known? v = (binary '-' (number "0") a).known? v := by
  have zero : Text.integer? "0" = some 0 := by decide
  cases known : a.known? v with
  | none => simp [known?, known, zero]
  | some x => simp [known?, known, zero, compute?]

theorem resultTy_spec {a b : Node} (ha : a.ty.isArithmetic = true) (hb : b.ty.isArithmetic = true) :
    (resultTy a b).isArithmetic = true ∧ (resultTy a b).resolved = resultTy a b ∧
      (resultTy a b).isFloat = (a.isFloat || b.isFloat) := by
  have unknown (x : String) : (Ty.placeholder x).isFloat = false := rfl
  have shown (n : Node) (h : n.ty.isArithmetic = true) : n.ty.resolved.resolved = n.ty.resolved := by
    rcases Ty.isArithmetic_cases h with ⟨p, ty⟩ | ⟨x, ty⟩ <;> rw [ty] <;> rfl
  have left := shown a ha
  have right := shown b hb
  unfold Ty.isArithmetic at ha hb ⊢
  unfold resultTy Node.isFloat
  rcases Ty.isArithmetic_cases ha with ⟨p, tyA⟩ | ⟨x, tyA⟩ <;>
    rcases Ty.isArithmetic_cases hb with ⟨q, tyB⟩ | ⟨y, tyB⟩ <;>
    simp only [tyA, tyB, Ty.isFloat_prim, unknown] at left right ha hb ⊢ <;>
    grind [Ty.isFloat_prim]

end Arith

theorem Infer.callee_folding {V : Type} (m : Meaning V) {t : Token} {v : View} (run : callee t (v.folding true) notices₁ = .ok p s)
    (run' : callee t (v.folding false) notices₂ = .ok q s') :
    p = q ∧ v.Calls t.value p.2.sig ∧
      ∀ n ∈ p.2.receiver, n.reads = false ∧ n.divisions = [] ∧ ∃ x, m.eval n = some x := by
  rcases callee_ok run with ⟨sig, function, rfl⟩ | ⟨function, x, isPointer, full, sig, method, rfl⟩
  · rcases callee_ok run' with ⟨sig', function', rfl⟩ | ⟨function', _⟩
    · obtain rfl := Option.some.inj (function.symm.trans function')
      exact ⟨rfl, .inl function, by simp⟩
    · cases function.symm.trans function'
  · rcases callee_ok run' with ⟨sig', function', rfl⟩ | ⟨_, x', isPointer', full', sig', method', rfl⟩
    · cases function.symm.trans function'
    · obtain ⟨rfl, rfl, rfl, rfl⟩ : x = x' ∧ isPointer = isPointer' ∧ full = full' ∧ sig = sig' := by
        simpa using method.symm.trans method'
      refine ⟨rfl, .inr ⟨x, isPointer, full, method⟩, fun n receiver => ?_⟩
      obtain rfl := Option.some.inj receiver
      cases isPointer with
      | true => exact ⟨rfl, rfl, _, m.eval_name ..⟩
      | false => exact ⟨rfl, rfl, _, (m.eval_address ..).trans (by rw [m.eval_name, Option.map_some])⟩

namespace Arith

section Matching

variable (m : Meaning V)

/-- What a tree becomes with folding matches what it becomes without it. -/
structure Matches (v : View) (tree : Arith) (a b : Node) : Prop where
  bare : a.Bare
  bare' : b.Bare
  /-- The same quotients depend on calls, dereferences and indices. -/
  reads : a.reads = b.reads
  length : a.divisions.length = b.divisions.length
  /-- What depends on none of these is fractional in both or in neither. -/
  float : a.reads = false → a.isFloat = b.isFloat
  types : tree.CallsConcrete v → a.ty.Alike b.ty ∧ a.divisions = b.divisions
  /-- Numbers are computed as the tree says. -/
  known : ∀ z, a.integer? = some z → tree.known? v = some (z, a.isFloat)
  /-- Both mean the same, if the same quotients are fractional. -/
  same : a.divisions = b.divisions → tree.DividesExactly v → ∃ x, m.eval a = some x ∧ m.eval b = some x

variable {m} {tree tree' left right : Arith}

theorem Matches.of_tree (h : Matches m v tree n n') (known : tree'.known? v = tree.known? v)
    (divides : tree'.DividesExactly v → tree.DividesExactly v)
    (concrete : tree'.CallsConcrete v → tree.CallsConcrete v) : Matches m v tree' n n' where
  bare := h.bare
  bare' := h.bare'
  reads := h.reads
  length := h.length
  float := h.float
  types calls := h.types (concrete calls)
  known z computed := known.trans (h.known z computed)
  same alike exact := h.same alike (divides exact)

theorem known_of_ne_number {ty : Ty} (noNumber : ∀ text expr, form ≠ .number text expr)
    (h : (Node.node t ty form).integer? = some z) : tree.known? v = some (z, (Node.node t ty form).isFloat) := by
  obtain ⟨_, _, text, h, _⟩ := Node.integer?_eq_some h
  exact absurd (Node.node.inj h).2.2 (noNumber text .absent)

theorem Matches.of_reading {ty ty' : Ty} {form' : Form Node} (isReading : form.isReading = true)
    (isReading' : form'.isReading = true)
    (length : (form.children.flatMap Node.divisions).length = (form'.children.flatMap Node.divisions).length)
    (types : tree.CallsConcrete v → ty.Alike ty' ∧
      form.children.flatMap Node.divisions = form'.children.flatMap Node.divisions)
    (same : form.children.flatMap Node.divisions = form'.children.flatMap Node.divisions → tree.DividesExactly v →
      ∃ x, m.eval (.node t ty form) = some x ∧ m.eval (.node t ty' form') = some x) :
    Matches m v tree (.node t ty form) (.node t ty' form') := by
  have noNumber {form : Form Node} (h : form.isReading = true) (text : String) (expr : Node) :
      form ≠ .number text expr := by
    rintro rfl
    cases h
  have noQuotient {form : Form Node} (h : form.isReading = true) : form.isQuotient = false := by
    cases form <;> first | rfl | cases h
  have divisions := Node.divisions_of_not_isQuotient t ty (noQuotient isReading)
  have divisions' := Node.divisions_of_not_isQuotient t ty' (noQuotient isReading')
  have reads : (Node.node t ty form).reads = true := by rw [Node.reads_node, isReading, Bool.true_or]
  have reads' : (Node.node t ty' form').reads = true := by rw [Node.reads_node, isReading', Bool.true_or]
  refine ⟨fun t => Node.bare_of_ne_number (noNumber isReading) t,
    fun t => Node.bare_of_ne_number (noNumber isReading') t,
    reads.trans reads'.symm, ?_, ?_, ?_, ?_, ?_⟩
  · rw [divisions, divisions', length]
  · intro none
    cases reads.symm.trans none
  · rw [divisions, divisions']
    exact types
  · intro z h
    exact known_of_ne_number (noNumber isReading) h
  · rw [divisions, divisions']
    exact same

theorem Matches.number (text : String) :
    Matches m v (.number text) (.numeral t text (if Text.contains text '.' then .f64 else .int))
      (.numeral t text (if Text.contains text '.' then .f64 else .int)) where
  bare := Node.bare_numeral _ _ _
  bare' := Node.bare_numeral _ _ _
  reads := rfl
  length := rfl
  float _ := rfl
  types _ := ⟨.inl rfl, rfl⟩
  known z read := by
    obtain ⟨_, _, text, h, read⟩ := Node.integer?_eq_some read
    obtain rfl := (Form.number.inj (Node.node.inj h).2.2).1
    rw [Text.contains_point read, known?, read]
    rfl
  same _ _ := ⟨_, m.eval_numeral .., m.eval_numeral ..⟩

theorem Matches.name (respects : m.Respects v) {path : String} {notices₁ notices₂ s s' : List Notice}
    (run : nameNode t path (v.folding true) notices₁ = .ok n s)
    (run' : nameNode t path (v.folding false) notices₂ = .ok n' s') : Matches m v (.name path) n n' := by
  obtain ⟨x, found, result⟩ := nameNode_ok run
  obtain ⟨x', found', result'⟩ := nameNode_ok run'
  change v.find? path = some x at found
  obtain rfl : x = x' := Option.some.inj (found.symm.trans found')
  rw [View.feature_folding] at result'
  obtain rfl : n' = .node t x.ty (.name x.name x.flat) := by simpa using result'
  have bare' : (Node.node t x.ty (.name x.name x.flat)).Bare := fun t' => Node.bare_of_ne_number (by simp) t'
  rcases result with ⟨_, const, nonempty, rfl⟩ | rfl
  · refine ⟨fun t' => Node.bare_numeral _ _ _ t', bare', rfl, rfl, fun _ => rfl, fun _ => ⟨.inl rfl, rfl⟩, ?_, ?_⟩
    · intro z read
      obtain ⟨_, _, text, h, read⟩ := Node.integer?_eq_some read
      obtain rfl : x.value = text := (Form.number.inj (Node.node.inj h).2.2).1
      rw [known?, found, Option.bind_some, if_pos const, read]
      rfl
    · intro _ _
      exact ⟨_, m.eval_numeral .., by rw [m.eval_name, respects path x found const nonempty]⟩
  · refine ⟨bare', bare', rfl, rfl, fun _ => rfl, fun _ => ⟨.inl rfl, rfl⟩, ?_, ?_⟩
    · intro z h
      exact known_of_ne_number (by simp) h
    · intro _ _
      exact ⟨_, m.eval_name .., m.eval_name ..⟩

theorem operate_of_ne (h : op ≠ '/') (exact exact' : Bool) : operate exact op = operate exact' op := by
  funext x y
  simp only [operate, if_neg h]

theorem Matches.computed (hl : Matches m v left a a') (hr : Matches m v right b b') {x y z : Int}
    (hx : a.integer? = some x) (hy : b.integer? = some y) (computed : compute? op x y = some z)
    (numbers : a.ty.isArithmetic = true ∧ b.ty.isArithmetic = true)
    (numbers' : a'.ty.isArithmetic = true ∧ b'.ty.isArithmetic = true) :
    Matches m v (.binary op left right) (.numeral t (toString z) (resultTy a b))
      (.node t (resultTy a' b') (.binary op a' b')) := by
  obtain ⟨arithmetic, shown, float⟩ := resultTy_spec numbers.1 numbers.2
  obtain ⟨arithmetic', shown', float'⟩ := resultTy_spec numbers'.1 numbers'.2
  obtain ⟨readsA, noneA⟩ := Node.closed_of_integer? hx
  obtain ⟨readsB, noneB⟩ := Node.closed_of_integer? hy
  have readsA' := hl.reads.symm.trans readsA
  have readsB' := hr.reads.symm.trans readsB
  have noneA' : a'.divisions = [] := eq_nil_of_length_eq_zero (by rw [← hl.length, noneA]; rfl)
  have noneB' : b'.divisions = [] := eq_nil_of_length_eq_zero (by rw [← hr.length, noneB]; rfl)
  have both : (resultTy a b).isFloat = (resultTy a' b').isFloat := by
    rw [float, float', hl.float readsA, hr.float readsB]
  have isFloat : (resultTy a b).resolved.isFloat = (resultTy a' b').resolved.isFloat := by
    rw [shown, shown', both]
  have divisions' : (Node.node t (resultTy a' b') (.binary op a' b')).divisions = [] := by
    rw [Node.divisions_binary, readsA', readsB', noneA', noneB']
    simp
  have knownA := hl.known x hx
  have knownB := hr.known y hy
  refine ⟨fun t' => Node.bare_numeral _ _ _ t', fun t' => Node.bare_of_ne_number (by simp) t', ?_, ?_, fun _ => isFloat,
    fun _ => ⟨.inr ⟨arithmetic, arithmetic', isFloat⟩, ?_⟩, ?_, ?_⟩
  · rw [Node.reads_numeral, Node.reads_binary, readsA', readsB']
    rfl
  · rw [Node.divisions_numeral, divisions']
  · rw [Node.divisions_numeral, divisions']
  · intro z' read
    obtain ⟨_, _, text, h, read⟩ := Node.integer?_eq_some read
    obtain rfl : toString z = text := (Form.number.inj (Node.node.inj h).2.2).1
    obtain rfl := Option.some.inj ((Text.integer?_toString z).symm.trans read)
    have result : (Node.numeral t (toString z) (resultTy a b)).isFloat = (a.isFloat || b.isFloat) :=
      (congrArg Ty.isFloat shown).trans float
    rw [known?, knownA, knownB, result]
    simp [computed]
  · intro _ exact
    -- Known integers have no quotients inside that are in question, so both operands mean the same.
    cases exact with
    | binary _ exactA exactB divides =>
      obtain ⟨x', evalA, evalA'⟩ := hl.same (noneA.trans noneA'.symm) exactA
      obtain ⟨y', evalB, evalB'⟩ := hr.same (noneB.trans noneB'.symm) exactB
      obtain rfl : x' = m.number x := Option.some.inj (evalA.symm.trans (m.eval_of_integer? hx))
      obtain rfl : y' = m.number y := Option.some.inj (evalB.symm.trans (m.eval_of_integer? hy))
      have value : operate (resultTy a' b').isFloat op x y = z := by
        refine operate_of_compute? computed fun fractional division => ?_
        exact divides division _ _ knownA knownB (by rw [← float, both, fractional])
      refine ⟨m.number z, ?_, ?_⟩
      · rw [m.eval_numeral, Text.decimal_of_integer? (Text.integer?_toString z)]
      · rw [m.eval_binary, evalA', evalB', ← value]
        simp [m.value_number]

theorem Matches.kept (hl : Matches m v left a a') (hr : Matches m v right b b')
    (numbers : a.ty.isArithmetic = true ∧ b.ty.isArithmetic = true)
    (numbers' : a'.ty.isArithmetic = true ∧ b'.ty.isArithmetic = true) :
    Matches m v (.binary op left right) (.node t (resultTy a b) (.binary op a b))
      (.node t (resultTy a' b') (.binary op a' b')) := by
  obtain ⟨arithmetic, shown, float⟩ := resultTy_spec numbers.1 numbers.2
  obtain ⟨arithmetic', shown', float'⟩ := resultTy_spec numbers'.1 numbers'.2
  have length : (if op == '/' && (a.reads || b.reads) then [(resultTy a b).resolved.isFloat] else []).length =
      (if op == '/' && (a'.reads || b'.reads) then [(resultTy a' b').resolved.isFloat] else []).length := by
    rw [hl.reads, hr.reads]
    split <;> rfl
  have none (h : (a.reads || b.reads) = false) : (resultTy a b).isFloat = (resultTy a' b').isFloat := by
    obtain ⟨readsA, readsB⟩ := Bool.or_eq_false_iff.mp h
    rw [float, float', hl.float readsA, hr.float readsB]
  refine ⟨fun t' => Node.bare_of_ne_number (by simp) t', fun t' => Node.bare_of_ne_number (by simp) t',
    ?_, ?_, ?_, ?_, ?_, ?_⟩
  · rw [Node.reads_binary, Node.reads_binary, hl.reads, hr.reads]
  · rw [Node.divisions_binary, Node.divisions_binary, length_append, length_append, length,
      length_append, length_append, hl.length, hr.length]
  · intro reads
    rw [Node.reads_binary] at reads
    show (resultTy a b).resolved.isFloat = (resultTy a' b').resolved.isFloat
    rw [shown, shown', none reads]
  · intro concrete
    cases concrete with
    | binary _ concreteA concreteB =>
      obtain ⟨alikeA, divisionsA⟩ := hl.types concreteA
      obtain ⟨alikeB, divisionsB⟩ := hr.types concreteB
      have isFloat : (resultTy a b).resolved.isFloat = (resultTy a' b').resolved.isFloat := by
        rw [shown, shown', float, float']
        exact congrArg₂ (· || ·) alikeA.isFloat_eq alikeB.isFloat_eq
      refine ⟨.inr ⟨arithmetic, arithmetic', isFloat⟩, ?_⟩
      rw [Node.divisions_binary, Node.divisions_binary, hl.reads, hr.reads, isFloat, divisionsA, divisionsB]
  · intro z h
    exact known_of_ne_number (by simp) h
  · intro alike exact
    rw [Node.divisions_binary, Node.divisions_binary] at alike
    -- The lists of quotients are as long in both results, so they agree part by part.
    obtain ⟨alike, parts⟩ := append_inj alike length
    obtain ⟨alikeA, alikeB⟩ := append_inj parts hl.length
    cases exact with
    | binary _ exactA exactB divides =>
      obtain ⟨x, evalA, evalA'⟩ := hl.same alikeA exactA
      obtain ⟨y, evalB, evalB'⟩ := hr.same alikeB exactB
      have operator : operate (resultTy a b).isFloat op = operate (resultTy a' b').isFloat op := by
        by_cases quotient : op = '/'
        · cases reads : a.reads || b.reads with
          | false => rw [none reads]
          | true =>
            rw [← hl.reads, ← hr.reads, reads, quotient, shown, shown'] at alike
            rw [head_eq_of_cons_eq (show [_] = [_] from alike)]
        · exact operate_of_ne quotient _ _
      refine ⟨m.number (operate (resultTy a b).isFloat op (m.value x) (m.value y)), ?_, ?_⟩
      · rw [m.eval_binary, evalA, evalB, Option.bind_some, Option.map_some]
      · rw [m.eval_binary, evalA', evalB', operator, Option.bind_some, Option.map_some]

theorem Matches.combine (hl : Matches m v left a a') (hr : Matches m v right b b')
    {notices₁ notices₂ s s' : List Notice} (run : Arith.combine t op a b (v.folding true) notices₁ = .ok n s)
    (run' : Arith.combine t op a' b' (v.folding false) notices₂ = .ok n' s') :
    Matches m v (.binary op left right) n n' := by
  obtain ⟨numA, numB, result⟩ := combine_ok run
  obtain ⟨numA', numB', result'⟩ := combine_ok run'
  rw [View.feature_folding] at result'
  obtain rfl : n' = .node t (resultTy a' b') (.binary op a' b') := by simpa using result'
  rcases result with ⟨_, x, y, z, hx, hy, computed, rfl⟩ | rfl
  · exact hl.computed hr hx hy computed ⟨numA, numB⟩ ⟨numA', numB'⟩
  · exact hl.kept hr ⟨numA, numB⟩ ⟨numA', numB'⟩

theorem Matches.deref (h : Matches m v tree a a') {notices₁ notices₂ s s' : List Notice}
    (run : Infer.deref t a (v.folding true) notices₁ = .ok n s)
    (run' : Infer.deref t a' (v.folding false) notices₂ = .ok n' s') : Matches m v (.deref tree) n n' := by
  obtain ⟨ty, pointer, rfl⟩ := Infer.deref_ok run
  obtain ⟨ty', pointer', rfl⟩ := Infer.deref_ok run'
  refine .of_reading rfl rfl ?_ ?_ ?_ <;>
    simp only [Form.children, flatMap_cons, flatMap_nil, append_nil]
  · exact h.length
  · intro concrete
    cases concrete with
    | deref concrete =>
      obtain ⟨alike, divisions⟩ := h.types concrete
      have same := alike.of_element? (by rw [pointer]; rfl)
      rw [pointer, pointer'] at same
      obtain rfl := Ty.pointer.inj same
      exact ⟨.inl rfl, divisions⟩
  · intro alike exact
    cases exact with
    | deref exact =>
      obtain ⟨x, eval, eval'⟩ := h.same alike exact
      refine ⟨m.deref x, ?_, ?_⟩
      · rw [m.eval_deref, eval, Option.map_some]
      · rw [m.eval_deref, eval', Option.map_some]

theorem Matches.index (hl : Matches m v left a a') (hr : Matches m v right b b') (closed : Bool)
    {notices₁ notices₂ s s' : List Notice} (run : Infer.index t a b (v.folding true) notices₁ = .ok n s)
    (run' : Infer.index t a' b' (v.folding false) notices₂ = .ok n' s') :
    Matches m v (.index left right closed) n n' := by
  obtain ⟨elem, element, rfl⟩ := Infer.index_ok run
  obtain ⟨elem', element', rfl⟩ := Infer.index_ok run'
  refine .of_reading rfl rfl ?_ ?_ ?_ <;>
    simp only [Form.children, flatMap_cons, flatMap_nil, append_nil]
  · rw [length_append, length_append, hl.length, hr.length]
  · intro concrete
    cases concrete with
    | index _ concreteA concreteB =>
      obtain ⟨alike, divisionsA⟩ := hl.types concreteA
      obtain ⟨_, divisionsB⟩ := hr.types concreteB
      refine ⟨.inl ?_, by rw [divisionsA, divisionsB]⟩
      rw [← alike.of_element? element]
      simp [Ty.resolved.eq_1, element]
  · intro alike exact
    obtain ⟨alikeA, alikeB⟩ := append_inj alike hl.length
    cases exact with
    | index _ exactA exactB =>
      obtain ⟨x, evalA, evalA'⟩ := hl.same alikeA exactA
      obtain ⟨y, evalB, evalB'⟩ := hr.same alikeB exactB
      refine ⟨m.index x y, ?_, ?_⟩
      · rw [m.eval_index, evalA, evalB, Option.bind_some, Option.map_some]
      · rw [m.eval_index, evalA', evalB', Option.bind_some, Option.map_some]

variable (m) in
/-- What the arguments of a call become with folding matches what they become without it. -/
structure MatchesAll (v : View) (trees : List Arith) (as bs : List Node) : Prop where
  length : (as.flatMap Node.divisions).length = (bs.flatMap Node.divisions).length
  types : (∀ tree ∈ trees, tree.CallsConcrete v) → as.flatMap Node.divisions = bs.flatMap Node.divisions
  same : as.flatMap Node.divisions = bs.flatMap Node.divisions → (∀ tree ∈ trees, tree.DividesExactly v) →
    ∃ xs : List V, as.map (fun a => m.eval a) = xs.map some ∧ bs.map (fun b => m.eval b) = xs.map some

theorem MatchesAll.nil : MatchesAll m v [] [] [] :=
  ⟨rfl, fun _ => rfl, fun _ _ => ⟨[], rfl, rfl⟩⟩

theorem MatchesAll.cons {trees : List Arith} {as bs : List Node} (first : Matches m v tree a b)
    (rest : MatchesAll m v trees as bs) : MatchesAll m v (tree :: trees) (a :: as) (b :: bs) where
  length := by
    rw [flatMap_cons, flatMap_cons, length_append, length_append, first.length, rest.length]
  types concrete := by
    rw [flatMap_cons, flatMap_cons, (first.types (concrete tree mem_cons_self)).2,
      rest.types fun other mem => concrete other (mem_cons_of_mem _ mem)]
  same alike exact := by
    rw [flatMap_cons, flatMap_cons] at alike
    obtain ⟨alike, alikeRest⟩ := append_inj alike first.length
    obtain ⟨x, eval, eval'⟩ := first.same alike (exact tree mem_cons_self)
    obtain ⟨xs, evals, evals'⟩ := rest.same alikeRest fun other mem => exact other (mem_cons_of_mem _ mem)
    exact ⟨x :: xs, by simp [eval, evals], by simp [eval', evals']⟩

theorem MatchesAll.receiver {trees : List Arith} {as bs : List Node} {receiver : Option Node}
    (plain : ∀ n ∈ receiver, n.reads = false ∧ n.divisions = [] ∧ ∃ x, m.eval n = some x)
    (rest : MatchesAll m v trees as bs) : MatchesAll m v trees (receiver.toList ++ as) (receiver.toList ++ bs) := by
  cases receiver with
  | none => exact rest
  | some n =>
    obtain ⟨_, none, x, eval⟩ := plain n rfl
    simp only [Option.toList_some, singleton_append]
    constructor
    · simpa [none] using rest.length
    · simpa [none] using rest.types
    · intro alike exact
      obtain ⟨xs, evals, evals'⟩ := rest.same (by simpa [none] using alike) exact
      exact ⟨x :: xs, by simp [eval, evals], by simp [eval, evals']⟩

theorem Matches.call {f name : String} {trees : List Arith}
    (calls : v.Calls f sig) (args : MatchesAll m v trees as bs)
    (run : Infer.call t name sig as (v.folding true) notices₁ = .ok n s)
    (run' : Infer.call t name sig bs (v.folding false) notices₂ = .ok n' s') :
    Matches m v (.call f trees closed) n n' := by
  obtain ⟨bindings, rfl⟩ := Infer.call_ok run
  obtain ⟨bindings', rfl⟩ := Infer.call_ok run'
  refine .of_reading rfl rfl args.length ?_ ?_
  · intro concrete
    cases concrete with
    | call _ concreteArgs concrete =>
      have whole : (if sig.ret.isAbsent then Ty.void else sig.ret).hasPlaceholder = false := by
        split
        · rfl
        · exact concrete sig calls
      refine ⟨.inl ?_, args.types concreteArgs⟩
      rw [Ty.subst_eq_self bindings whole, Ty.subst_eq_self bindings' whole]
  · intro alike exact
    cases exact with
    | call _ _ exact =>
      obtain ⟨xs, evals, evals'⟩ := args.same alike exact
      exact ⟨_, m.eval_call _ _ _ _ evals, m.eval_call _ _ _ _ evals'⟩

mutual

theorem reduce_matches (respects : m.Respects v) (t : Token) : ∀ (tree : Arith) {n n' : Node}
    {notices₁ notices₂ s s' : List Notice}, tree.reduce t (v.folding true) notices₁ = .ok n s →
    tree.reduce t (v.folding false) notices₂ = .ok n' s' → Matches m v tree n n'
  | .number text => fun run run' => by
    rw [reduce] at run run'
    cases run
    cases run'
    exact .number text
  | .name path => fun run run' => .name respects run run'
  | .call f args closed => fun run run' => by
    rw [reduce] at run run'
    obtain ⟨p, _, runF, run⟩ := Infer.of_bind run
    obtain ⟨as, _, runAs, run⟩ := Infer.of_bind run
    obtain ⟨_, _, _, run⟩ := Infer.of_bind run
    obtain ⟨q, _, runF', run'⟩ := Infer.of_bind run'
    obtain ⟨bs, _, runBs, run'⟩ := Infer.of_bind run'
    obtain ⟨_, _, _, run'⟩ := Infer.of_bind run'
    obtain ⟨rfl, calls, plain⟩ := Infer.callee_folding m runF runF'
    exact .call calls ((reduceAll_matches respects t args runAs runBs).receiver plain) run run'
  | .negate operand => fun run run' => by
    rw [reduce] at run run'
    obtain ⟨a, _, runA, run⟩ := Infer.of_bind run
    obtain ⟨a', _, runA', run'⟩ := Infer.of_bind run'
    -- A minus sign is read as a difference from zero.
    have difference := Matches.combine (.number "0") (reduce_matches respects t operand runA runA') run run'
    refine difference.of_tree (known?_negate v operand) (fun exact => ?_) fun concrete => ?_
    · cases exact with
      | negate exact => exact .binary '-' (.number "0") exact (by simp)
    · cases concrete with
      | negate concrete => exact .binary '-' (.number "0") concrete
  | .binary op left right => fun run run' => by
    rw [reduce] at run run'
    obtain ⟨a, _, runA, run⟩ := Infer.of_bind run
    obtain ⟨b, _, runB, run⟩ := Infer.of_bind run
    obtain ⟨a', _, runA', run'⟩ := Infer.of_bind run'
    obtain ⟨b', _, runB', run'⟩ := Infer.of_bind run'
    exact (reduce_matches respects t left runA runA').combine (reduce_matches respects t right runB runB') run run'
  | .deref operand => fun run run' => by
    rw [reduce] at run run'
    obtain ⟨a, _, runA, run⟩ := Infer.of_bind run
    obtain ⟨a', _, runA', run'⟩ := Infer.of_bind run'
    exact (reduce_matches respects t operand runA runA').deref run run'
  | .index base position closed => fun run run' => by
    rw [reduce] at run run'
    obtain ⟨a, _, runA, run⟩ := Infer.of_bind run
    obtain ⟨b, _, runB, run⟩ := Infer.of_bind run
    obtain ⟨_, _, _, run⟩ := Infer.of_bind run
    obtain ⟨a', _, runA', run'⟩ := Infer.of_bind run'
    obtain ⟨b', _, runB', run'⟩ := Infer.of_bind run'
    obtain ⟨_, _, _, run'⟩ := Infer.of_bind run'
    exact (reduce_matches respects t base runA runA').index (reduce_matches respects t position runB runB')
      closed run run'
  | .paren inner closed => fun run run' => by
    rw [reduce] at run run'
    obtain ⟨a, _, runA, run⟩ := Infer.of_bind run
    obtain ⟨_, _, _, run⟩ := Infer.of_bind run
    obtain ⟨a', _, runA', run'⟩ := Infer.of_bind run'
    obtain ⟨_, _, _, run'⟩ := Infer.of_bind run'
    cases run
    cases run'
    refine (reduce_matches respects t inner runA runA').of_tree (by rw [known?]) (fun exact => ?_) fun concrete => ?_
    · cases exact with
      | paren _ exact => exact exact
    · cases concrete with
      | paren _ concrete => exact concrete
  | .broken p => fun run _ => by
    rw [reduce] at run
    cases run
  | .stuck => fun run _ => by
    rw [reduce] at run
    cases run

theorem reduceAll_matches (respects : m.Respects v) (t : Token) : ∀ (trees : List Arith) {as bs : List Node}
    {notices₁ notices₂ s s' : List Notice}, reduceAll t trees (v.folding true) notices₁ = .ok as s →
    reduceAll t trees (v.folding false) notices₂ = .ok bs s' → MatchesAll m v trees as bs
  | [] => fun run run' => by
    rw [reduceAll] at run run'
    cases run
    cases run'
    exact .nil
  | tree :: trees => fun run run' => by
    rw [reduceAll] at run run'
    obtain ⟨a, _, runA, run⟩ := Infer.of_bind run
    obtain ⟨as, _, runAs, run⟩ := Infer.of_bind run
    obtain ⟨b, _, runB, run'⟩ := Infer.of_bind run'
    obtain ⟨bs, _, runBs, run'⟩ := Infer.of_bind run'
    cases run
    cases run'
    exact .cons (reduce_matches respects t tree runA runB) (reduceAll_matches respects t trees runAs runBs)

end

end Matching

end Arith

namespace Infer

variable {m : Meaning V}

theorem arithmetic_inner {t : Token} {inner : Node} {want : Ty} (bare : inner.Bare)
    (result : (∃ t' ty value expr, inner = .node t' ty (.number value expr) ∧
        (n = .numeral t value want.resolved ∨ n = inner)) ∨ n = .node t inner.ty (.number inner.text inner)) :
    n.divisions = inner.divisions ∧ ∀ x, m.eval inner = some x → m.eval n = some x := by
  rcases result with ⟨t', ty, value, expr, rfl, rfl | rfl⟩ | rfl
  · obtain rfl := bare _ _ _ _ rfl
    exact ⟨rfl, fun x eval => (m.eval_numeral ..).trans ((m.eval_numeral t' value ty).symm.trans eval)⟩
  · exact ⟨rfl, fun x eval => eval⟩
  · refine ⟨?_, fun x eval => m.eval_number _ _ _ eval⟩
    rw [Node.divisions_of_not_isQuotient _ _ rfl]
    exact append_nil _

/-- A bracket group that is accepted with folding and without it means the same in both results, if known integers are
divided as fractional numbers only without a remainder and the same quotients are fractional. The latter is so unless
the result type of a call has a placeholder. -/
theorem arithmetic_meaning (m : Meaning V) {v : View} (respects : m.Respects v) {t : Token} {raw : String} {want : Ty}
    {folded plain : Node} {notices₁ notices₂ s s' : List Notice}
    (run : arithmetic t raw want (v.folding true) notices₁ = .ok folded s)
    (run' : arithmetic t raw want (v.folding false) notices₂ = .ok plain s') :
    ∃ units, Arith.scan raw.toList = .ok units ∧
      ((Arith.sum units).1.CallsConcrete v → folded.divisions = plain.divisions) ∧
      (folded.divisions = plain.divisions → (Arith.sum units).1.DividesExactly v →
        ∃ x, m.eval folded = some x ∧ m.eval plain = some x) := by
  obtain ⟨units, inner, scanned, reduced, result⟩ := arithmetic_ok run
  obtain ⟨units', inner', scanned', reduced', result'⟩ := arithmetic_ok run'
  obtain rfl := Except.ok.inj (scanned.symm.trans scanned')
  have both := Arith.reduce_matches respects t _ reduced reduced'
  obtain ⟨divisions, eval⟩ := arithmetic_inner (m := m) both.bare result
  obtain ⟨divisions', eval'⟩ := arithmetic_inner (m := m) both.bare' result'
  rw [divisions, divisions']
  refine ⟨units, scanned, fun concrete => (both.types concrete).2, fun alike exact => ?_⟩
  obtain ⟨x, inner, inner'⟩ := both.same alike exact
  exact ⟨x, eval x inner, eval' x inner'⟩

/-- A known quotient without a remainder, one that goes toward zero, and a third one behind a pointer. -/
theorem arithmetic_meaning_quotients :
    let v : View := {
      settings := {}
      context := {}
      scope := {
        top := { kind := .global, visible := [
          { name := "F", ty := .f64, const := true, value := "6" }, { name := "p", ty := .pointer .int }] } }
      last := default }
    let m : Meaning ℚ := .rational fun x => if x = "F" then 6 else 5
    let place : Node := .node default .int (.deref (.node default (.pointer .int) (.name "p" false)))
    let folded : Node := .node default .f64 (.number "(3 + (p^ / 3))" (.node default .f64 (.binary '+'
      (.numeral default "3" .f64) (.node default .int (.binary '/' place (.numeral default "3" .int))))))
    let plain : Node := .node default .f64 (.number "((F / 2) + (p^ / (7 / 2)))" (.node default .f64 (.binary '+'
      (.node default .f64 (.binary '/' (.node default .f64 (.name "F" false)) (.numeral default "2" .int)))
      (.node default .int (.binary '/' place
        (.node default .int (.binary '/' (.numeral default "7" .int) (.numeral default "2" .int))))))))
    m.Respects v ∧ arithmetic default "F / 2 + p^ / (7 / 2)" .f64 (v.folding true) [] = .ok folded [] ∧
      arithmetic default "F / 2 + p^ / (7 / 2)" .f64 (v.folding false) [] = .ok plain [] ∧
      folded.divisions = plain.divisions ∧ ∃ x, m.eval folded = some x ∧ m.eval plain = some x := by
  intro v m place folded plain
  have respects : m.Respects v := by
    refine Meaning.respects_of_visible (fun _ => rfl) fun x declared const known => ?_
    rcases mem_cons.mp declared with rfl | declared
    · show (6 : ℚ) = Text.decimal "6"
      rw [Text.decimal_of_integer? (z := 6) (by decide)]
      rfl
    · obtain rfl := mem_singleton.mp declared
      cases const
  have run : arithmetic default "F / 2 + p^ / (7 / 2)" .f64 (v.folding true) [] = .ok folded [] := by
    unfold v folded place
    cbv
  have run' : arithmetic default "F / 2 + p^ / (7 / 2)" .f64 (v.folding false) [] = .ok plain [] := by
    unfold v plain place
    cbv
  let units : List Arith.Lexeme := [.name "F", .sign '/', .number "2", .sign '+', .name "p", .sign '^', .sign '/',
    .sign '(', .number "7", .sign '/', .number "2", .sign ')']
  have scanned : Arith.scan "F / 2 + p^ / (7 / 2)".toList = .ok units := by
    unfold units
    cbv
  have tree : (Arith.sum units).1 = .binary '+' (.binary '/' (.name "F") (.number "2"))
      (.binary '/' (.deref (.name "p")) (.paren (.binary '/' (.number "7") (.number "2")) true)) := by
    unfold units
    cbv
  obtain ⟨units', scan, alike, same⟩ := arithmetic_meaning m respects run run'
  obtain rfl := Except.ok.inj (scanned.symm.trans scan)
  rw [tree] at alike same
  have divisions := alike (.binary '+' (.binary '/' (.name "F") (.number "2"))
    (.binary '/' (.deref (.name "p")) (.paren true (.binary '/' (.number "7") (.number "2")))))
  refine ⟨respects, run, run', divisions, same divisions ?_⟩
  refine .binary '+' (.binary '/' (.name "F") (.number "2") ?_) (.binary '/' (.deref (.name "p"))
    (.paren true (.binary '/' (.number "7") (.number "2") ?_)) ?_) (by simp)
  · intro _ x y hx hy _
    have six : (Arith.name "F").known? v = some (6, true) := by
      unfold v
      cbv
    obtain rfl := Option.some.inj (six.symm.trans hx)
    obtain rfl := Option.some.inj hy
    decide
  · intro _ x y hx hy float
    obtain rfl := Option.some.inj hx
    obtain rfl := Option.some.inj hy
    cases float
  · intro _ x y hx
    cases hx

/-- A constant of a fractional type is divided as an integer: with folding, half of three is one. -/
theorem arithmetic_cuts_off :
    let v : View := {
      settings := {}
      context := {}
      scope := { top := { kind := .global, visible := [{ name := "F", ty := .f64, const := true, value := "3" }] } }
      last := default }
    let folded : Node := .numeral default "1" .f64
    let plain : Node := .node default .f64 (.number "(F / 2)" (.node default .f64 (.binary '/'
      (.node default .f64 (.name "F" false)) (.numeral default "2" .int))))
    arithmetic default "F / 2" .f64 (v.folding true) [] = .ok folded [] ∧
      arithmetic default "F / 2" .f64 (v.folding false) [] = .ok plain [] ∧ folded.divisions = plain.divisions ∧
      ∀ (V : Type) (m : Meaning V), m.Respects v →
        m.eval folded = some (m.number 1) ∧ m.eval plain = some (m.number (3 / 2)) := by
  intro v folded plain
  have run : arithmetic default "F / 2" .f64 (v.folding true) [] = .ok folded [] := by
    unfold v folded
    cbv
  have run' : arithmetic default "F / 2" .f64 (v.folding false) [] = .ok plain [] := by
    unfold v plain
    cbv
  refine ⟨run, run', rfl, fun V m respects => ⟨?_, ?_⟩⟩
  · rw [m.eval_numeral, Text.decimal_of_integer? (z := 1) (by decide)]
    simp
  · have value : m.name "F" = m.number 3 := by
      have found : v.find? "F" = some { name := "F", ty := .f64, const := true, value := "3" } := by
        unfold v
        cbv
      have known := respects "F" _ found rfl (by decide)
      rw [Text.decimal_of_integer? (z := 3) (by decide)] at known
      exact known
    refine m.eval_number _ _ _ ?_
    rw [m.eval_binary, m.eval_name, m.eval_numeral, value, Text.decimal_of_integer? (z := 2) (by decide)]
    simp [m.value_number, operate, show Ty.f64.isFloat = true from rfl]

end Infer

end Impulse
