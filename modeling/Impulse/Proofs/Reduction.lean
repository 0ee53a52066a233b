import Impulse.Proofs.Formulas
import Impulse.Arith.Reduce

/-!
# What arithmetic becomes

Each step of reading arithmetic is inverted: what an access, a call, an operator, a name and a whole bracket group give,
if they are accepted.
-/

namespace Impulse

/-- The function `f` calls, by its own name or as a method. -/
def View.Calls (v : View) (f : String) (sig : Signature) : Prop :=
  v.context.functions.get? f = some sig ∨ ∃ x isPointer full, Infer.method? v f = some (x, isPointer, full, sig)

namespace Infer

theorem of_bind {f : α → Infer β}
    (h : (x >>= f) v notices = .ok b notices') :
    ∃ a notices₁, x v notices = .ok a notices₁ ∧ f a v notices₁ = .ok b notices' := by
  change EStateM.bind (x v) (fun a => f a v) notices = _ at h
  unfold EStateM.bind at h
  split at h
  · next a notices₁ run => exact ⟨a, notices₁, run, h⟩
  · cases h

theorem deref_ok (h : deref t a v notices = .ok n notices') :
    ∃ ty, a.ty.resolved = .pointer ty ∧ n = .node t ty (.deref a) := by
  unfold deref at h
  cases form : a.ty.resolved with
  | pointer elem =>
    simp only [form] at h
    cases h
    exact ⟨elem, rfl, rfl⟩
  | absent | prim | array | named | placeholder | view =>
    simp only [form] at h
    cases h

theorem index_ok (h : index t a i v notices = .ok n notices') :
    ∃ elem, a.ty.resolved.element? = some elem ∧ n = .node t (.view a.ty.resolved i.text) (.index a i) := by
  unfold index at h
  cases elem : a.ty.resolved.element? with
  | none =>
    simp only [elem, Option.isNone_none, if_true] at h
    cases h
  | some ty =>
    simp only [elem, Option.isNone_some, Bool.false_eq_true, if_false] at h
    split at h
    · cases h
    · cases h
      exact ⟨ty, rfl, rfl⟩

theorem call_ok {args : List Node}
    (h : call t name sig args v notices = .ok n notices') :
    ∃ bindings, n = .node t ((if sig.ret.isAbsent then .void else sig.ret).subst bindings) (.call name args) := by
  obtain ⟨w, _, known, h⟩ := of_bind h
  cases known
  cases check : Call.check v.context.functions name args with
  | ok bindings =>
    simp only [check] at h
    cases h
    exact ⟨bindings, rfl⟩
  | error e =>
    simp only [check] at h
    obtain ⟨_, _, _, h⟩ := of_bind h
    cases h
    exact ⟨[], rfl⟩

theorem callee_ok {p : String × Callee} (h : callee t v notices = .ok p notices') :
    (∃ sig, v.context.functions.get? t.value = some sig ∧ p = (t.value, { sig := sig })) ∨
      v.context.functions.get? t.value = none ∧ ∃ x isPointer full sig,
        method? v t.value = some (x, isPointer, full, sig) ∧
        p = (full, { sig := sig, receiver := some (if isPointer then .node t x.ty (.name x.name x.flat)
          else .addressOf t (.node t x.ty (.name x.name x.flat))) }) := by
  obtain ⟨w, _, known, h⟩ := of_bind h
  cases known
  cases function : v.context.functions.get? t.value with
  | some sig =>
    simp only [function] at h
    cases h
    exact .inl ⟨sig, rfl, rfl⟩
  | none =>
    simp only [function] at h
    cases method : method? v t.value with
    | none =>
      simp only [method] at h
      cases h
    | some found =>
      simp only [method] at h
      split at h
      · cases h
      · cases h
        exact .inr ⟨rfl, _, _, _, _, rfl, rfl⟩

end Infer

namespace Arith

theorem foldOp_ok (h : foldOp t op ty a b v notices = .ok n notices') :
    ∃ z, compute? op a b = some z ∧ n = .numeral t (toString z) ty := by
  unfold foldOp at h
  cases computed : compute? op a b with
  | none =>
    simp only [computed] at h
    cases h
  | some z =>
    simp only [computed] at h
    obtain ⟨w, _, known, h⟩ := Infer.of_bind h
    cases known
    split at h
    · obtain ⟨_, _, _, h⟩ := Infer.of_bind h
      cases h
      exact ⟨z, rfl, rfl⟩
    · cases h
      exact ⟨z, rfl, rfl⟩

theorem combine_ok {a b : Node} (h : combine t op a b v notices = .ok n notices') :
    a.ty.isArithmetic = true ∧ b.ty.isArithmetic = true ∧
      ((v.settings.feature .fold = true ∧ ∃ x y z, a.integer? = some x ∧ b.integer? = some y ∧
          compute? op x y = some z ∧ n = .numeral t (toString z) (resultTy a b)) ∨
        n = .node t (resultTy a b) (.binary op a b)) := by
  have kept {zero : Bool} {p : Problem} {notices₁ : List Notice}
      (h : (if zero = true then Infer.fail t p
          else pure (.node t (resultTy a b) (.binary op a b)) : Infer Node) v notices₁ =
        .ok n notices') : n = .node t (resultTy a b) (.binary op a b) := by
    cases zero with
    | true => cases h
    | false =>
      cases h
      rfl
  have numeric {n : Node} {notices notices' : List Notice} {u : Unit}
      (h : requireNumeric t op n v notices = .ok u notices') : n.ty.isArithmetic = true := by
    unfold requireNumeric at h
    split at h
    · next arithmetic => exact arithmetic
    · cases h
  obtain ⟨_, _, left, h⟩ := Infer.of_bind h
  obtain ⟨_, _, right, h⟩ := Infer.of_bind h
  obtain ⟨w, _, known, h⟩ := Infer.of_bind h
  cases known
  refine ⟨numeric left, numeric right, ?_⟩
  dsimp only at h
  generalize left : (if v.settings.feature .fold = true then a.integer? else none) = x at h
  generalize right : b.integer? = y at h
  cases x with
  | some x =>
    cases y with
    | some y =>
      obtain ⟨folding, known⟩ : v.settings.feature .fold = true ∧ a.integer? = some x := by simpa using left
      obtain ⟨z, computed⟩ := foldOp_ok h
      exact .inl ⟨folding, x, y, z, known, rfl, computed⟩
    | none => exact .inr (kept h)
  | none => exact .inr (kept h)

theorem nameNode_ok {path : String} (h : nameNode t path v notices = .ok n notices') :
    ∃ x, v.find? path = some x ∧
      ((v.settings.feature .fold = true ∧ x.const = true ∧ x.value ≠ "" ∧ n = .numeral t x.value x.ty) ∨
        n = .node t x.ty (.name x.name x.flat)) := by
  obtain ⟨w, _, known, h⟩ := Infer.of_bind h
  cases known
  cases found : v.find? path with
  | none =>
    simp only [found] at h
    cases h
  | some x =>
    simp only [found] at h
    refine ⟨x, rfl, ?_⟩
    split at h
    · next value =>
      cases h
      simp only [Bool.and_eq_true, bne_iff_ne] at value
      exact .inl ⟨value.2, value.1.1, value.1.2, rfl⟩
    · cases h
      exact .inr rfl

end Arith

theorem Infer.arithmetic_ok {want : Ty}
    (h : arithmetic t raw want v notices = .ok n notices') :
    ∃ units inner, Arith.scan raw.toList = .ok units ∧ (Arith.sum units).1.reduce t v notices = .ok inner notices' ∧
      ((∃ t' ty value expr, inner = .node t' ty (.number value expr) ∧
          (n = .numeral t value want.resolved ∨ n = inner)) ∨ n = .node t inner.ty (.number inner.text inner)) := by
  unfold arithmetic at h
  cases scanned : Arith.scan raw.toList with
  | error e =>
    simp only [scanned] at h
    cases h
  | ok units =>
    simp only [scanned] at h
    obtain ⟨inner, notices₁, run, h⟩ := of_bind h
    refine ⟨units, inner, rfl, ?_⟩
    cases rest : (Arith.sum units).2 with
    | cons unit rest =>
      simp only [rest] at h
      cases h
    | nil =>
      simp only [rest] at h
      split at h
      · split at h
        · cases h
          exact ⟨run, .inl ⟨_, _, _, _, rfl, .inl rfl⟩⟩
        · cases h
          exact ⟨run, .inl ⟨_, _, _, _, rfl, .inr rfl⟩⟩
      · split at h
        · cases h
        · cases h
          exact ⟨run, .inr rfl⟩

end Impulse
