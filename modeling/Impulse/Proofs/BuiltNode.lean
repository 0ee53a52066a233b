import Impulse.Proofs.ArithTree
import Impulse.Proofs.WrittenType

/-!
# The nodes of expressions

Every node that an expression is read into is built in one of a few ways, and each way comes with the checks
that were made. `View.Builds` lists them. This file shows it for the operators and for arithmetic in bracket
groups; what is read from tokens follows in `Impulse.Proofs.Expressions`.
-/

namespace Impulse

variable (t : Token) (op : Char)

def View.Lax (v : View) : Prop :=
  v.settings.feature .strictTypes = false

/-- The texts of numbers: a number that is written, one that was computed, and the value of a constant. -/
inductive View.Spells (v : View) : String → Prop
  | written {text : String} (h : Text.isNumber text = true) : Spells v text
  | computed (z : Int) : Spells v (toString z)
  | constant {path : String} {x : Variable} (found : v.find? path = some x) : Spells v x.value

/-- The nodes that expressions are read into, with what is checked when they are built. -/
inductive View.Builds (v : View) : Node → Prop
  | numeral (t : Token) {value : String} {ty : Ty} (numeric : (ty.isPlaceholder || ty.isNumeric) = true)
      (spelled : v.Spells value) : Builds v (.numeral t value ty)
  | constant (t : Token) {path : String} {x : Variable} (found : v.find? path = some x)
      (const : x.const = true) : Builds v (.numeral t x.value x.ty)
  | computed (t : Token) {n : Node} (inner : Builds v n) (numeric : n.ty.isArithmetic = true) :
      Builds v (.node t n.ty (.number n.text n))
  | name (t : Token) {path : String} {x : Variable} (found : v.find? path = some x) :
      Builds v (.node t x.ty (.name x.name x.flat))
  | string (t : Token) (value : String) : Builds v (.stringLit t value)
  | char (t : Token) (value : String) : Builds v (.charLit t value)
  | bool (t : Token) (value : Bool) : Builds v (.boolLit t value)
  | embed (t : Token) (code : String) : Builds v (.embedded t code)
  | typeName (t : Token) {final : Token} {toks rest : List Token} {ty : Ty}
      (read : TypeExpr.read v false final toks = .ok (ty, rest)) : Builds v (.typeLit t ty)
  | list (t : Token) {elem : Ty} {nodes : List Node} (complete : elem.isComplete = true)
      (inner : ∀ n ∈ nodes, Builds v n) (fits : ∀ n ∈ nodes, elem.accepts n = true ∨ v.Lax) :
      Builds v (.node t (.array elem (toString nodes.length)) (.list nodes))
  | index (t : Token) {n i : Node} (base : Builds v n) (position : Builds v i)
      (indexable : n.ty.resolved.element?.isSome = true) :
      Builds v (.node t (.view n.ty.resolved i.text) (.index n i))
  | deref (t : Token) {n : Node} {elem : Ty} (inner : Builds v n)
      (pointer : n.ty.resolved = .pointer elem) : Builds v (.node t elem (.deref n))
  | address (t : Token) {n : Node} (inner : Builds v n) (place : n.isPlace = true) :
      Builds v (.addressOf t n)
  | call (t : Token) {f : String} {sig : Signature} {args : List Node} {b : Bindings}
      (known : v.context.functions.get? f = some sig) (inner : ∀ n ∈ args, Builds v n)
      (fits : Call.check v.context.functions f args = .ok b ∨ v.Lax ∧ b = []) :
      Builds v (.node t ((if sig.ret.isAbsent then Ty.void else sig.ret).subst b) (.call f args))
  | binary (t : Token) (op : Char) {left right : Node} (hleft : Builds v left)
      (hright : Builds v right) (numericLeft : left.ty.isArithmetic = true)
      (numericRight : right.ty.isArithmetic = true) :
      Builds v (.node t (Arith.resultTy left right) (.binary op left right))

namespace Ty

theorem isComplete_of_numeric {ty : Ty} (h : (ty.isPlaceholder || ty.isNumeric) = true) : ty.isComplete = true := by
  cases ty with
  | prim p | placeholder name => rfl
  | _ => cases h

end Ty

theorem Arith.resultTy_eq (left right : Node) :
    resultTy left right = left.ty.resolved ∨ resultTy left right = right.ty.resolved := by
  unfold resultTy
  dsimp only
  split
  · exact .inl rfl
  · split
    · exact .inr rfl
    · split
      · exact .inr rfl
      · exact .inl rfl

namespace View.Builds

variable {v : View}

theorem isAbsent (h : v.Builds n) : n.isAbsent = false := by
  cases h <;> rfl

theorem completeArg (hv : v.Complete) (h : v.Builds n) : Call.CompleteArg n := by
  induction h with
  | numeral t numeric =>
    refine ⟨Ty.isComplete_of_numeric numeric, ?_⟩
    intro ty hty
    cases hty
  | constant t found const =>
    refine ⟨hv.find? found, ?_⟩
    intro ty hty
    cases hty
  | computed t inner numeric ih =>
    refine ⟨ih.1, ?_⟩
    intro ty hty
    cases hty
  | @name t path x found =>
    refine ⟨hv.find? found, ?_⟩
    intro ty hty
    -- A variable that holds a type stands for a placeholder.
    unfold Node.typeValue? at hty
    split at hty
    · next heq => cases heq
    · cases hty
      rfl
    · cases hty
  | string t value | char t value | bool t value | embed t code => exact ⟨rfl, nofun⟩
  | @typeName t final toks rest ty read =>
    refine ⟨rfl, ?_⟩
    intro ty' hty
    cases hty
    exact ((TypeExpr.read_settled v false final toks).of_ok read).1
  | list t complete inner fits ih => exact ⟨complete, nofun⟩
  | index t base position indexable ihBase ihPosition =>
    exact ⟨Ty.isComplete_resolved ihBase.1, nofun⟩
  | deref t inner pointer ih =>
    have hcomplete := Ty.isComplete_resolved ih.1
    rw [pointer] at hcomplete
    exact ⟨hcomplete, nofun⟩
  | address t inner place ih => exact ⟨ih.1, nofun⟩
  | @call t f sig args b known inner fits ih =>
    have hsig := hv.context.functions f sig known
    have hb : b.Complete := by
      rcases fits with hcheck | ⟨-, rfl⟩
      · exact Call.complete_check ih hcheck
      · intro name ty hty
        cases hty
    refine ⟨Ty.isComplete_subst hb _ ?_, nofun⟩
    rw [Ty.ne_absent_of_isComplete hsig.ret]
    exact hsig.ret
  | @binary t op left right hleft hright _ _ ihLeft ihRight =>
    refine ⟨?_, nofun⟩
    rcases Arith.resultTy_eq left right with h | h
    · exact h ▸ Ty.isComplete_resolved ihLeft.1
    · exact h ▸ Ty.isComplete_resolved ihRight.1

end View.Builds

namespace Call

theorem reportable_of_check (hargs : ∀ a ∈ args, a.isAbsent = false)
    (h : check functions callee args = .error e) : (Mismatch.call e).Reportable := by
  have one : ∀ (declared : List String) (position : Nat) (p : Param) (arg : Node) (b : Bindings)
      {e : CallProblem}, arg.isAbsent = false →
      checkArg callee declared position p arg b = .error e → (Mismatch.call e).Reportable := by
    intro declared position p arg b e harg h
    have accepted : ∀ {c : Bool} {got want : Ty},
        (if c = true then Except.ok b else Except.error (.wrongType callee position got want)) = .error e →
        (Mismatch.call e).Reportable := by
      intro c got want hc
      split at hc
      · cases hc
      · cases hc
        exact trivial
    unfold checkArg at h
    simp only [harg, Bool.false_eq_true, if_false] at h
    split at h
    · split at h
      · cases h
      · cases h
        exact trivial
    · split at h
      · cases h
        exact trivial
      · split at h
        · split at h
          · exact accepted h
          · cases h
        · exact accepted h
  have all : ∀ (pairs : List (Param × Node)) (declared : List String) (position : Nat) (b : Bindings),
      (∀ q ∈ pairs, q.2.isAbsent = false) →
      checkArgs callee declared position b pairs = .error e → (Mismatch.call e).Reportable := by
    intro pairs declared
    induction pairs with
    | nil =>
      intro position b _ h
      cases h
    | cons q pairs ih =>
      obtain ⟨p, arg⟩ := q
      intro position b hpairs h
      rw [checkArgs] at h
      split at h
      · next e' he' =>
        cases h
        exact one declared position p arg b (hpairs (p, arg) (.head _)) he'
      · exact ih _ _ (fun q hq => hpairs q (.tail _ hq)) h
  unfold check at h
  split at h
  · cases h
    exact trivial
  · split at h
    · cases h
    · split at h
      · cases h
        exact trivial
      · exact all _ _ 1 [] (fun q hq => hargs q.2 (List.of_mem_zip hq).2) h

end Call

variable {v : View}

/-- What arithmetic becomes: if it is a number, its text is that of a number. -/
structure View.Reduces (v : View) (n : Node) : Prop where
  builds : v.Builds n
  spelled {t : Token} {ty : Ty} {text : String} {expr : Node} :
    n = .node t ty (.number text expr) → v.Spells text

namespace View.Reduces

theorem other (h : v.Builds n) (form : n.isNumber = false) : v.Reduces n := by
  refine ⟨h, ?_⟩
  rintro t ty text expr rfl
  cases form

theorem numeral (t : Token) (numeric : (ty.isPlaceholder || ty.isNumeric) = true)
    (spelled : v.Spells value) : v.Reduces (.numeral t value ty) where
  builds := .numeral t numeric spelled
  spelled same := by
    cases same
    exact spelled

end View.Reduces

namespace Infer

theorem deref_builds (hn : v.Builds n) : Ensures v (deref t n) v.Reduces := by
  unfold deref
  split
  · next elem pointer => exact .pure (.other (.deref t hn pointer) rfl)
  · exact .fail trivial

theorem index_builds (hn : v.Builds n) (hi : v.Builds i) : Ensures v (index t n i) v.Reduces := by
  unfold index
  dsimp only
  split
  · exact .fail trivial
  · next indexable =>
    split
    · exact .fail trivial
    · exact .pure (.other (.index t hn hi (by simpa [Option.isSome_iff_ne_none] using indexable)) rfl)

theorem callee_builds :
    Ensures v (callee t) fun r =>
      v.context.functions.get? r.1 = some r.2.sig ∧ ∀ n ∈ r.2.receiver.toList, v.Builds n := by
  unfold callee
  refine .read ?_
  split
  · next sig known => exact .pure ⟨known, by simp⟩
  · split
    · exact .fail trivial
    · next x isPointer full sig hmethod =>
      split
      · exact .fail trivial
      · obtain ⟨known, path, found⟩ : v.context.functions.get? full = some sig ∧
            ∃ path, v.find? path = some x := by
          unfold method? at hmethod
          obtain ⟨⟨path, method⟩, hcut, hmethod⟩ := Option.bind_eq_some_iff.mp hmethod
          dsimp only at hmethod
          split at hmethod
          · cases hmethod
          · obtain ⟨y, found, hmethod⟩ := Option.bind_eq_some_iff.mp hmethod
            obtain ⟨⟨pointer, struct, args⟩, -, hmethod⟩ := Option.bind_eq_some_iff.mp hmethod
            obtain ⟨sig', known, hmethod⟩ := Option.bind_eq_some_iff.mp hmethod
            cases hmethod
            exact ⟨known, path, found⟩
        have self := View.Builds.name t found
        refine .pure ⟨known, ?_⟩
        intro n hn
        obtain rfl := List.mem_singleton.mp hn
        split
        · exact self
        · exact .address t self rfl

theorem call_builds (known : v.context.functions.get? name = some sig)
    (hargs : ∀ n ∈ args, v.Builds n) : Ensures v (call t name sig args) v.Reduces := by
  unfold call
  refine .read ?_
  cases hcheck : Call.check v.context.functions name args with
  | ok b => exact .pure (.other (.call t known hargs (.inl hcheck)) rfl)
  | error e =>
    have reportable := Call.reportable_of_check (fun a ha => (hargs a ha).isAbsent) hcheck
    have warned : Ensures v (mismatch t (.call e)) fun _ => v.Lax := .mismatch reportable
    exact warned.bind fun _ lax => .pure (.other (.call t known hargs (.inr ⟨lax, rfl⟩)) rfl)

end Infer

namespace Arith

open Infer (Ensures)

theorem requireNumeric_ensures (n : Node) : Ensures v (requireNumeric t op n) fun _ => n.ty.isArithmetic = true := by
  unfold requireNumeric
  split
  · next numeric => exact .pure numeric
  · exact .fail trivial

theorem requireClosed_ensures (sign : String) (closed : Bool) :
    Ensures v (requireClosed t sign closed) fun _ => True := by
  unfold requireClosed
  split
  · exact .pure trivial
  · exact .fail trivial

theorem foldOp_builds (numeric : (ty.isPlaceholder || ty.isNumeric) = true) (a b : Int) :
    Ensures v (foldOp t op ty a b) v.Reduces := by
  unfold foldOp
  split
  · exact .fail trivial
  · next value _ =>
    refine .read ?_
    have built := View.Reduces.numeral t numeric (.computed (v := v) value)
    dsimp only
    split
    · exact (Ensures.warn (by trivial)).bind fun _ _ => .pure built
    · exact .pure built

theorem combine_builds (hleft : v.Builds left)
    (hright : v.Builds right) : Ensures v (combine t op left right) v.Reduces := by
  unfold combine
  refine (requireNumeric_ensures t op left).bind fun _ numericLeft => ?_
  refine (requireNumeric_ensures t op right).bind fun _ numericRight => ?_
  have numeric : ((resultTy left right).isPlaceholder || (resultTy left right).isNumeric) = true := by
    rcases resultTy_eq left right with h | h
    · rw [h]
      exact numericLeft
    · rw [h]
      exact numericRight
  refine .read ?_
  dsimp only
  split
  · exact foldOp_builds t op numeric _ _
  · split
    · exact .fail trivial
    · exact .pure (.other (.binary t op hleft hright numericLeft numericRight) rfl)

theorem nameNode_builds (name : String) : Ensures v (nameNode t name) v.Reduces := by
  unfold nameNode
  refine .read ?_
  split
  · exact .fail trivial
  · next x found =>
    split
    · next known =>
      have const : x.const = true := by
        simp only [Bool.and_eq_true] at known
        exact known.1.1
      refine .pure ⟨.constant t found const, fun same => ?_⟩
      cases same
      exact .constant found
    · exact .pure (.other (.name t found) rfl)

theorem reduceAll_builds (args : List Arith) (hargs : ∀ a ∈ args, Ensures v (reduce t a) v.Reduces) :
    Ensures v (reduceAll t args) fun ns => ∀ n ∈ ns, v.Builds n := by
  induction args with
  | nil =>
    rw [reduceAll]
    exact .pure (by simp)
  | cons a args ih =>
    rw [reduceAll]
    refine (hargs a (.head _)).bind fun n hn => ?_
    refine (ih fun a ha => hargs a (.tail _ ha)).bind fun ns hns => ?_
    exact .pure (by simpa using ⟨hn.builds, hns⟩)

theorem reduce_builds (ha : a.Unstuck) : Ensures v (reduce t a) v.Reduces := by
  induction ha with
  | number written =>
    rw [reduce]
    refine .pure (.numeral t ?_ (.written written))
    split <;> rfl
  | name text =>
    rw [reduce]
    exact nameNode_builds t text
  | call f closed _ ih =>
    rw [reduce]
    refine (Infer.callee_builds _).bind fun r hr => ?_
    refine (reduceAll_builds t _ ih).bind fun ns hns => ?_
    refine (requireClosed_ensures t ")" closed).bind fun _ _ => ?_
    refine Infer.call_builds _ hr.1 ?_
    intro n hn
    rcases List.mem_append.mp hn with receiver | arg
    · exact hr.2 n receiver
    · exact hns n arg
  | negate _ ih =>
    rw [reduce]
    exact ih.bind fun n hn => combine_builds t '-' (.numeral t rfl (.written (by decide))) hn.builds
  | binary op _ _ ihLeft ihRight =>
    rw [reduce]
    exact ihLeft.bind fun a ha => ihRight.bind fun b hb => combine_builds t op ha.builds hb.builds
  | deref _ ih =>
    rw [reduce]
    exact ih.bind fun n hn => Infer.deref_builds t hn.builds
  | index closed _ _ ihBase ihPosition =>
    rw [reduce]
    refine ihBase.bind fun n hn => ihPosition.bind fun i hi => ?_
    exact (requireClosed_ensures t "|" closed).bind fun _ _ => Infer.index_builds t hn.builds hi.builds
  | paren closed _ ih =>
    rw [reduce]
    exact ih.bind fun n hn => (requireClosed_ensures t ")" closed).bind fun _ _ => .pure hn
  | broken h =>
    rw [reduce]
    exact .fail h

end Arith

theorem Infer.arithmetic_builds (raw : String) (want : Ty) : Ensures v (arithmetic t raw want) v.Builds := by
  unfold arithmetic
  split
  · exact .fail trivial
  · next units scanned =>
    dsimp only
    have tree := (Arith.sum_reads units (Arith.scan_written scanned)).1
    refine (Arith.reduce_builds t tree).bind fun n hn => ?_
    split
    · exact .fail trivial
    · split
      · next value _ _ =>
        split
        · next numeric => exact .pure (.numeral t (by rw [numeric, Bool.or_true]) (hn.spelled rfl))
        · exact .pure hn.builds
      · split
        · exact .fail trivial
        · next numeric => exact .pure (.computed t hn.builds (by simpa using numeric))

end Impulse
