import Impulse.Proofs.Outcome

/-!
# Trees of arithmetic are read to the end

The readers of arithmetic call each other on what is left of the units. Each of them leaves an end of the units
it was given, so the tests for progress in their definitions always succeed, and no tree that is read
contains the mark of a reader that could not go on. The numbers of a tree are written as the units are.
-/

namespace Impulse.Arith

open List

/-- All numbers among the units are written as numbers. -/
def Written (units : List Lexeme) : Prop :=
  ∀ text, Lexeme.number text ∈ units → Text.isNumber text = true

theorem Written.suffix (h : Written units) (behind : rest <:+ units) : Written rest :=
  fun text mem => h text (behind.subset mem)

theorem isNumber_scanNumber (h : scanNumber c cs = .ok text) :
    Text.isNumber text = true := by
  have checked : ∀ {other : String}, (if Text.isNumber other then Except.ok other
      else .error (LiteralProblem.malformedNumber other)) = .ok text → Text.isNumber text = true := by
    intro other given
    split at given
    · next number =>
      cases given
      exact number
    · cases given
  unfold scanNumber at h
  dsimp only at h
  split at h
  · split at h
    · cases h
    · exact checked h
  · exact checked h

theorem scan_written (h : scan cs = .ok units) : Written units := by
  fun_induction scan cs generalizing units with
  | case1 =>
    cases h
    exact fun text mem => absurd mem not_mem_nil
  | case2 c cs _ ih => exact ih h
  | case5 c cs _ _ text number units' rest ih =>
    cases h
    intro text' mem
    rcases mem_cons.mp mem with same | mem
    · cases same
      exact isNumber_scanNumber number
    · exact ih rest text' mem
  | case7 c cs _ _ _ units' rest ih | case9 c cs _ _ _ _ units' rest ih =>
    cases h
    intro text mem
    rcases mem_cons.mp mem with same | mem
    · cases same
    · exact ih rest text mem
  | case3 | case4 | case6 | case8 | case10 => cases h

/-- A tree in which no reader got stuck. The places where reading could not go on are kept with problems that
can be reported. -/
inductive Unstuck : Arith → Prop
  | number {text : String} (written : Text.isNumber text = true) : Unstuck (.number text)
  | name (text : String) : Unstuck (.name text)
  | call (f : String) {args : List Arith} (closed : Bool) (hargs : ∀ a ∈ args, Unstuck a) :
      Unstuck (.call f args closed)
  | negate {a : Arith} (h : Unstuck a) : Unstuck (.negate a)
  | binary (op : Char) {a b : Arith} (ha : Unstuck a) (hb : Unstuck b) : Unstuck (.binary op a b)
  | deref {a : Arith} (h : Unstuck a) : Unstuck (.deref a)
  | index {a b : Arith} (closed : Bool) (ha : Unstuck a) (hb : Unstuck b) :
      Unstuck (.index a b closed)
  | paren {a : Arith} (closed : Bool) (h : Unstuck a) : Unstuck (.paren a closed)
  | broken {p : Problem} (h : p.Reportable) : Unstuck (.broken p)

/-- What a reader makes of the units it was given: a tree, and an end of the units. -/
def Reads (units : List Lexeme) (r : Parsed) : Prop :=
  r.1.Unstuck ∧ r.2 <:+ units

theorem close_suffix (c : Char) (units : List Lexeme) : (close c units).2 <:+ units := by
  unfold close
  split
  · split
    · exact suffix_cons _ _
    · exact nil_suffix
  · exact nil_suffix

section Readers

variable {sum : List Lexeme → Parsed}
  (hsum : ∀ inner, inner.length < size → Written inner → Reads inner (sum inner))

include hsum

theorem arguments_reads (hlen : units.length < size) (written : Written units) :
    (∀ a ∈ (arguments sum units).1, a.Unstuck) ∧ (arguments sum units).2 <:+ units := by
  fun_induction arguments sum units with
  | case1 units arg rest hr hlt args after heq ih =>
    obtain ⟨first, left⟩ := hr ▸ hsum units hlen written
    have behind : rest <:+ units := (suffix_cons _ _).trans left
    obtain ⟨hargs, hafter⟩ := heq ▸ ih (by omega) (written.suffix behind)
    refine ⟨?_, hafter.trans behind⟩
    intro a ha
    rcases mem_cons.mp ha with rfl | ha
    · exact first
    · exact hargs a ha
  | case2 units arg rest hr hge =>
    have left := (hr ▸ hsum units hlen written).2.length_le
    simp only [length_cons] at left
    omega
  | case3 units arg rest _ hr =>
    obtain ⟨first, left⟩ := hr ▸ hsum units hlen written
    refine ⟨?_, left⟩
    intro a ha
    rw [mem_singleton.mp ha]
    exact first

theorem primary_reads (hlen : units.length ≤ size) (written : Written units) : Reads units (primary sum units) := by
  unfold primary
  split
  · exact ⟨.broken trivial, suffix_refl _⟩
  · exact ⟨.number (written _ (.head _)), suffix_cons _ _⟩
  · exact ⟨.call _ _ (by simp), ⟨[_, _, _], rfl⟩⟩
  · next text rest _ =>
    have behind : rest <:+ .name text :: .sign '(' :: rest := ⟨[_, _], rfl⟩
    simp only [length_cons] at hlen
    obtain ⟨hargs, hafter⟩ := arguments_reads hsum (by omega) (written.suffix behind)
    exact ⟨.call _ _ hargs, ((close_suffix ')' _).trans hafter).trans behind⟩
  · exact ⟨.name _, suffix_cons _ _⟩
  · next rest =>
    have behind : rest <:+ .sign '(' :: rest := suffix_cons _ _
    simp only [length_cons] at hlen
    obtain ⟨hinner, hafter⟩ := hsum rest (by omega) (written.suffix behind)
    exact ⟨.paren _ hinner, ((close_suffix ')' _).trans hafter).trans behind⟩
  · exact ⟨.broken trivial, nil_suffix⟩

theorem postfixes_reads (hoperand : operand.Unstuck) (hlen : units.length ≤ size)
    (written : Written units) : Reads units (postfixes sum operand units) := by
  fun_induction postfixes sum operand units with
  | case1 operand rest ih =>
    simp only [length_cons] at hlen
    have behind := suffix_cons (.sign '^') rest
    obtain ⟨htree, hrest⟩ := ih (.deref hoperand) (by omega) (written.suffix behind)
    exact ⟨htree, hrest.trans behind⟩
  | case2 operand rest position after hr closed last hclose hle ih =>
    simp only [length_cons] at hlen
    have next := suffix_cons (.sign '|') rest
    obtain ⟨hposition, hafter⟩ := hr ▸ hsum rest (by omega) (written.suffix next)
    have shut := close_suffix '|' after
    rw [hclose] at shut
    have behind := (shut.trans hafter).trans next
    obtain ⟨htree, hrest⟩ := ih (.index closed hoperand hposition) (by omega) (written.suffix behind)
    exact ⟨htree, hrest.trans behind⟩
  | case3 operand rest position after hr closed last hclose hgt =>
    simp only [length_cons] at hlen
    have hafter := (hr ▸ hsum rest (by omega) (written.suffix (suffix_cons _ _))).2
    have shut := close_suffix '|' after
    rw [hclose] at shut
    exact absurd (shut.trans hafter).length_le hgt
  | case4 operand units _ _ => exact ⟨hoperand, suffix_refl _⟩

theorem unary_reads (hlen : units.length ≤ size) (written : Written units) : Reads units (unary sum units) := by
  fun_induction unary sum units with
  | case1 rest operand after hr ih =>
    simp only [length_cons] at hlen
    have behind := suffix_cons (.sign '-') rest
    obtain ⟨htree, hafter⟩ := hr ▸ ih (by omega) (written.suffix behind)
    exact ⟨.negate htree, hafter.trans behind⟩
  | case2 units _ operand rest hr =>
    obtain ⟨hoperand, hrest⟩ := hr ▸ primary_reads hsum hlen written
    obtain ⟨htree, hafter⟩ := postfixes_reads hsum hoperand (Nat.le_trans hrest.length_le hlen) (written.suffix hrest)
    exact ⟨htree, hafter.trans hrest⟩

omit hsum in
theorem chain_reads (isOp : Char → Bool)
    (hoperand : ∀ inner, inner.length ≤ size → Written inner → Reads inner (operand inner)) (hleft : left.Unstuck) (hlen : units.length ≤ size) (written : Written units) :
    Reads units (chain isOp operand left units) := by
  fun_induction chain isOp operand left units with
  | case1 left op rest hop right after hr hle ih =>
    simp only [length_cons] at hlen
    have next := suffix_cons (.sign op) rest
    obtain ⟨hright, hafter⟩ := hr ▸ hoperand rest (by omega) (written.suffix next)
    have behind := hafter.trans next
    obtain ⟨htree, hrest⟩ := ih (.binary op hleft hright) (by omega) (written.suffix behind)
    exact ⟨htree, hrest.trans behind⟩
  | case2 left op rest hop right after hr hgt =>
    simp only [length_cons] at hlen
    have hafter := (hr ▸ hoperand rest (by omega) (written.suffix (suffix_cons _ _))).2
    exact absurd hafter.length_le hgt
  | case3 left op rest hop | case4 left units _ => exact ⟨hleft, suffix_refl _⟩

theorem product_reads (hlen : units.length ≤ size) (written : Written units) : Reads units (product sum units) := by
  obtain ⟨hoperand, hrest⟩ := unary_reads hsum hlen written
  obtain ⟨htree, hafter⟩ := chain_reads isProductOp (fun _ => unary_reads hsum) hoperand
    (Nat.le_trans hrest.length_le hlen) (written.suffix hrest)
  exact ⟨htree, hafter.trans hrest⟩

end Readers

theorem sum_reads (units : List Lexeme) (written : Written units) : Reads units (sum units) := by
  rw [sum]
  have hsmaller : ∀ inner, inner.length < units.length → Written inner →
      Reads inner (if _h : inner.length < units.length then sum inner else (.stuck, [])) := by
    intro inner hlt written
    rw [dif_pos hlt]
    exact sum_reads inner written
  obtain ⟨hoperand, hrest⟩ := product_reads hsmaller (Nat.le_refl _) written
  obtain ⟨htree, hafter⟩ := chain_reads isSumOp (fun _ => product_reads hsmaller) hoperand hrest.length_le
    (written.suffix hrest)
  exact ⟨htree, hafter.trans hrest⟩
termination_by units.length

end Impulse.Arith
