import Impulse.Proofs.FileSteps
import Impulse.Proofs.Reduction
import Mathlib

/-!
# Arithmetic that is read whole

Arithmetic is accepted only if reading it went on everywhere and found the end of every part. The units of such a tree
are made up in a few ways, and an index is none of them: the bar that should close an index is taken for the beginning of
another one, since the postfix operators behind the position are read before the end of the index is looked for.
-/

namespace Impulse

open List

namespace Arith

mutual

def isWhole : Arith → Bool
  | number _ => true
  | name _ => true
  | call _ args closed => allWhole args && closed
  | negate operand => operand.isWhole
  | binary _ left right => left.isWhole && right.isWhole
  | deref operand => operand.isWhole
  | index base position closed => base.isWhole && position.isWhole && closed
  | paren inner closed => inner.isWhole && closed
  | broken _ => false
  | stuck => false

def allWhole : List Arith → Bool
  | [] => true
  | a :: as => a.isWhole && allWhole as

end

/-- The units that whole trees are read from. -/
inductive Phrase : List Lexeme → Prop
  | number (text : String) : Phrase [.number text]
  | name (text : String) : Phrase [.name text]
  | callNone (f : String) : Phrase [.name f, .sign '(', .sign ')']
  | call (f : String) {first : List Lexeme} {more : List (List Lexeme)} (h : Phrase first)
      (hs : ∀ units ∈ more, Phrase units) :
      Phrase (.name f :: .sign '(' :: (first ++ more.flatMap (.sign ',' :: ·) ++ [.sign ')']))
  | negate {units : List Lexeme} (h : Phrase units) : Phrase (.sign '-' :: units)
  | binary {op : Char} (isOp : isSumOp op = true ∨ isProductOp op = true) {left right : List Lexeme} (hl : Phrase left)
      (hr : Phrase right) : Phrase (left ++ .sign op :: right)
  | deref {units : List Lexeme} (h : Phrase units) : Phrase (units ++ [.sign '^'])
  | paren {units : List Lexeme} (h : Phrase units) : Phrase (.sign '(' :: (units ++ [.sign ')']))

theorem Phrase.no_bar (h : Phrase units) : .sign '|' ∉ units := by
  induction h with
  | number | name | callNone => simp
  | call f _ _ ih ihs =>
    simp only [mem_cons, mem_append, mem_flatMap, not_or, not_exists, not_and]
    refine ⟨by simp, by simp, ⟨ih, fun units mem => ⟨by simp, ihs units mem⟩⟩, by simp⟩
  | negate _ ih | deref _ ih | paren _ ih => simp [ih]
  | @binary op isOp left right _ _ ihl ihr =>
    have other : op ≠ '|' := by
      rintro rfl
      rcases isOp with isOp | isOp <;> cases isOp
    simp [ihl, ihr, other.symm]

/-- What a reader of trees does: what it leaves never begins with a bar, and what it read of a whole tree is a phrase. -/
structure Careful (reader : List Lexeme → Parsed) : Prop where
  bar : ∀ units rest, (reader units).2 ≠ .sign '|' :: rest
  phrase : ∀ units, (reader units).1.isWhole = true → ∃ read, units = read ++ (reader units).2 ∧ Phrase read

theorem close_eq (h : (close c units).1 = true) : units = .sign c :: (close c units).2 := by
  unfold close at h ⊢
  split at h
  · split at h
    · next same =>
      rw [if_pos same, same]
    · cases h
  · cases h

section Readers

section

variable (careful : Careful reader)
include careful

theorem arguments_phrase (whole : allWhole (arguments reader units).1 = true) :
    ∃ (first : List Lexeme) (more : List (List Lexeme)),
      units = first ++ more.flatMap (.sign ',' :: ·) ++ (arguments reader units).2 ∧ Phrase first ∧
        ∀ read ∈ more, Phrase read := by
  fun_induction arguments reader units with
  | case1 units arg rest read _ args after found ih =>
    obtain ⟨here, others⟩ := Bool.and_eq_true_iff.mp whole
    have front := careful.phrase units
    rw [read] at front
    obtain ⟨first, front, phrase⟩ := front here
    rw [found] at ih
    obtain ⟨second, more, back, phrase', phrases⟩ := ih others
    refine ⟨first, second :: more, ?_, phrase, forall_mem_cons.mpr ⟨phrase', phrases⟩⟩
    simpa [back] using front
  | case2 => cases whole
  | case3 units arg rest _ read =>
    obtain ⟨here, -⟩ := Bool.and_eq_true_iff.mp whole
    have front := careful.phrase units
    rw [read] at front
    obtain ⟨first, front, phrase⟩ := front here
    exact ⟨first, [], by simpa using front, phrase, forall_mem_nil _⟩

theorem primary_phrase (whole : (primary reader units).1.isWhole = true) :
    ∃ read, units = read ++ (primary reader units).2 ∧ Phrase read := by
  revert whole
  unfold primary
  split
  · exact fun whole => absurd whole Bool.false_ne_true
  · next text rest => exact fun _ => ⟨[.number text], rfl, .number text⟩
  · next text rest => exact fun _ => ⟨[.name text, .sign '(', .sign ')'], rfl, .callNone text⟩
  · next text rest _ =>
    intro whole
    obtain ⟨all, closed⟩ := Bool.and_eq_true_iff.mp whole
    obtain ⟨first, more, front, phrase, phrases⟩ := arguments_phrase careful all
    refine ⟨_, ?_, .call text phrase phrases⟩
    rw [close_eq closed] at front
    simpa using front
  · next text rest _ _ => exact fun _ => ⟨[.name text], rfl, .name text⟩
  · next rest =>
    intro whole
    obtain ⟨inner, closed⟩ := Bool.and_eq_true_iff.mp whole
    obtain ⟨read, front, phrase⟩ := careful.phrase rest inner
    refine ⟨_, ?_, .paren phrase⟩
    rw [close_eq closed] at front
    simpa using front
  · exact fun whole => absurd whole Bool.false_ne_true

theorem postfixes_phrase (operand : Arith) (units : List Lexeme) :
    (∀ rest, (postfixes reader operand units).2 ≠ .sign '|' :: rest) ∧
      ((postfixes reader operand units).1.isWhole = true → operand.isWhole = true ∧
        ∀ before, Phrase before → ∃ read, units = read ++ (postfixes reader operand units).2 ∧ Phrase (before ++ read)) := by
  fun_induction postfixes reader operand units with
  | case1 operand rest ih =>
    refine ⟨ih.1, fun whole => ?_⟩
    obtain ⟨inner, longer⟩ := ih.2 whole
    refine ⟨inner, fun before phrase => ?_⟩
    obtain ⟨read, front, phrase'⟩ := longer _ phrase.deref
    refine ⟨.sign '^' :: read, congrArg _ front, ?_⟩
    simpa using phrase'
  | case2 operand rest position after read closed last found _ ih =>
    refine ⟨ih.1, fun whole => ?_⟩
    -- The position leaves no bar that could close the index.
    have shut : closed = true := (Bool.and_eq_true_iff.mp (ih.2 whole).1).2
    have leaves := careful.bar rest
    have bar : after = .sign '|' :: (close '|' after).2 := close_eq (by rw [found]; exact shut)
    rw [read] at leaves
    exact absurd bar (leaves _)
  | case3 =>
    refine ⟨fun rest => by simp, fun whole => ?_⟩
    cases whole
  | case4 operand units _ noBar =>
    refine ⟨fun rest => noBar rest, fun whole => ⟨whole, fun before phrase => ⟨[], rfl, ?_⟩⟩⟩
    rwa [append_nil]

theorem unary_careful : Careful (unary reader) := by
  have both (units : List Lexeme) : (∀ rest, (unary reader units).2 ≠ .sign '|' :: rest) ∧
      ((unary reader units).1.isWhole = true → ∃ read, units = read ++ (unary reader units).2 ∧ Phrase read) := by
    fun_induction unary reader units with
    | case1 rest operand after read ih =>
      rw [read] at ih
      refine ⟨ih.1, fun whole => ?_⟩
      obtain ⟨inner, front, phrase⟩ := ih.2 whole
      exact ⟨.sign '-' :: inner, congrArg _ front, phrase.negate⟩
    | case2 units _ operand rest read =>
      obtain ⟨bar, whole⟩ := postfixes_phrase careful operand rest
      refine ⟨bar, fun accepted => ?_⟩
      obtain ⟨inner, longer⟩ := whole accepted
      have first : (primary reader units).1.isWhole = true → _ := primary_phrase careful
      rw [read] at first
      obtain ⟨before, front, phrase⟩ := first inner
      obtain ⟨more, back, phrase'⟩ := longer before phrase
      refine ⟨before ++ more, ?_, phrase'⟩
      rw [append_assoc, ← back]
      exact front
  exact ⟨fun units => (both units).1, fun units => (both units).2⟩

end

theorem chain_phrase (operators : ∀ c, isOp c = true → isSumOp c = true ∨ isProductOp c = true)
    (careful : Careful reader) (left : Arith) (units : List Lexeme) (bar : ∀ rest, units ≠ .sign '|' :: rest) :
    (∀ rest, (chain isOp reader left units).2 ≠ .sign '|' :: rest) ∧
      ((chain isOp reader left units).1.isWhole = true → left.isWhole = true ∧
        ∀ before, Phrase before → ∃ read, units = read ++ (chain isOp reader left units).2 ∧ Phrase (before ++ read)) := by
  fun_induction chain isOp reader left units with
  | case1 left op rest isOperator right after read _ ih =>
    have leaves := careful.bar rest
    have phrases := careful.phrase rest
    rw [read] at leaves phrases
    obtain ⟨bar, longer⟩ := ih leaves
    refine ⟨bar, fun whole => ?_⟩
    obtain ⟨both, longer⟩ := longer whole
    obtain ⟨first, second⟩ := Bool.and_eq_true_iff.mp both
    obtain ⟨operand, front, phrase'⟩ := phrases second
    refine ⟨first, fun before phrase => ?_⟩
    obtain ⟨more, back, phrase''⟩ := longer _ (.binary (operators op isOperator) phrase phrase')
    refine ⟨.sign op :: (operand ++ more), ?_, by simpa using phrase''⟩
    rw [cons_append, append_assoc, ← back]
    exact congrArg _ front
  | case2 =>
    refine ⟨fun rest => by simp, fun whole => ?_⟩
    cases whole
  | case3 left op rest _ | case4 left units _ =>
    exact ⟨bar, fun whole => ⟨whole, fun before phrase => ⟨[], rfl, by rwa [append_nil]⟩⟩⟩

theorem chain_careful (operators : ∀ c, isOp c = true → isSumOp c = true ∨ isProductOp c = true)
    (careful : Careful reader) : Careful fun units => chain isOp reader (reader units).1 (reader units).2 := by
  constructor
  · intro units
    exact (chain_phrase operators careful _ _ (careful.bar units)).1
  · intro units whole
    obtain ⟨first, longer⟩ := (chain_phrase operators careful _ _ (careful.bar units)).2 whole
    obtain ⟨before, front, phrase⟩ := careful.phrase units first
    obtain ⟨more, back, phrase'⟩ := longer before phrase
    refine ⟨before ++ more, ?_, phrase'⟩
    rw [append_assoc, ← back]
    exact front

theorem product_careful (careful : Careful reader) : Careful (product reader) :=
  chain_careful (fun _ => .inr) (unary_careful careful)

end Readers

theorem sum_careful : Careful sum := by
  have both (units : List Lexeme) : (∀ rest, (sum units).2 ≠ .sign '|' :: rest) ∧
      ((sum units).1.isWhole = true → ∃ read, units = read ++ (sum units).2 ∧ Phrase read) := by
    induction size : units.length using Nat.strong_induction_on generalizing units with
    | _ size ih =>
      have smaller : Careful fun inner => if _h : inner.length < units.length then sum inner else (.stuck, []) := by
        constructor
        · intro inner
          split
          · next shorter => exact (ih _ (size ▸ shorter) inner rfl).1
          · simp
        · intro inner
          split
          · next shorter => exact (ih _ (size ▸ shorter) inner rfl).2
          · exact fun whole => absurd whole Bool.false_ne_true
      have careful := chain_careful (fun _ => .inl) (product_careful smaller)
      rw [sum]
      exact ⟨careful.bar units, careful.phrase units⟩
  exact ⟨fun units => (both units).1, fun units => (both units).2⟩

section Accepted

theorem closed_of_requireClosed
    (h : requireClosed t sign closed v notices = .ok u notices') : closed = true := by
  cases closed with
  | true => rfl
  | false => cases h

mutual

theorem isWhole_of_reduce : ∀ (tree : Arith) {n : Node} {notices notices' : List Notice},
    tree.reduce t v notices = .ok n notices' → tree.isWhole = true
  | number _, _, _, _, _ => rfl
  | name _, _, _, _, _ => rfl
  | call f args closed, _, _, _, h => by
    rw [reduce] at h
    obtain ⟨_, _, _, h⟩ := Infer.of_bind h
    obtain ⟨_, _, all, h⟩ := Infer.of_bind h
    obtain ⟨_, _, shut, _⟩ := Infer.of_bind h
    rw [isWhole, allWhole_of_reduceAll args all, closed_of_requireClosed shut]
    rfl
  | negate operand, _, _, _, h => by
    rw [reduce] at h
    obtain ⟨_, _, inner, _⟩ := Infer.of_bind h
    exact isWhole_of_reduce operand inner
  | binary op left right, _, _, _, h => by
    rw [reduce] at h
    obtain ⟨_, _, first, h⟩ := Infer.of_bind h
    obtain ⟨_, _, second, _⟩ := Infer.of_bind h
    rw [isWhole, isWhole_of_reduce left first, isWhole_of_reduce right second]
    rfl
  | deref operand, _, _, _, h => by
    rw [reduce] at h
    obtain ⟨_, _, inner, _⟩ := Infer.of_bind h
    exact isWhole_of_reduce operand inner
  | index base position closed, _, _, _, h => by
    rw [reduce] at h
    obtain ⟨_, _, first, h⟩ := Infer.of_bind h
    obtain ⟨_, _, second, h⟩ := Infer.of_bind h
    obtain ⟨_, _, shut, _⟩ := Infer.of_bind h
    rw [isWhole, isWhole_of_reduce base first, isWhole_of_reduce position second, closed_of_requireClosed shut]
    rfl
  | paren inner closed, _, _, _, h => by
    rw [reduce] at h
    obtain ⟨_, _, first, h⟩ := Infer.of_bind h
    obtain ⟨_, _, shut, _⟩ := Infer.of_bind h
    rw [isWhole, isWhole_of_reduce inner first, closed_of_requireClosed shut]
    rfl
  | broken _, _, _, _, h | stuck, _, _, _, h => by
    rw [reduce] at h
    cases h

theorem allWhole_of_reduceAll : ∀ (trees : List Arith) {ns : List Node} {notices notices' : List Notice},
    reduceAll t trees v notices = .ok ns notices' → allWhole trees = true
  | [], _, _, _, _ => rfl
  | tree :: trees, _, _, _, h => by
    rw [reduceAll] at h
    obtain ⟨_, _, first, h⟩ := Infer.of_bind h
    obtain ⟨_, _, others, _⟩ := Infer.of_bind h
    rw [allWhole, isWhole_of_reduce tree first, allWhole_of_reduceAll trees others]
    rfl

end

end Accepted

theorem scan_cons_sign (sign : isSign c = true)
    (h : scan (c :: cs) = .ok units) : ∃ rest, units = .sign c :: rest ∧ scan cs = .ok rest := by
  cases scanned : scan cs with
  | ok rest =>
    rw [scan_sign sign scanned] at h
    exact ⟨rest, (Except.ok.inj h).symm, rfl⟩
  | error e =>
    obtain ⟨blank, digit, part⟩ := isSign_cases sign
    unfold isNamePart at part
    simp only [Bool.or_eq_false_iff] at part
    rw [scan, if_neg (by simp [blank]), if_neg (by simp [digit]), part.1.1.1, part.1.2, if_neg (by simp), if_pos sign,
      scanned] at h
    cases h

theorem dropWhile_at_sign (least : ∀ c, p c = true → isNamePart c = true) (sign : isSign c = true)
    (before after : List Char) : (before ++ c :: after).dropWhile p = before.dropWhile p ++ c :: after := by
  have stop : p c = false := by
    rw [Bool.eq_false_iff]
    intro part
    have name := least c part
    rw [(isSign_cases sign).2.2] at name
    cases name
  rw [dropWhile_append]
  split
  · next all =>
    rw [isEmpty_iff.mp all]
    simp [stop]
  · rfl

theorem scan_at_sign (sign : isSign c = true) {before after : List Char} (h : scan (before ++ c :: after) = .ok units) :
    ∃ front back, units = front ++ .sign c :: back ∧ scan after = .ok back := by
  induction size : before.length using Nat.strong_induction_on generalizing before units with
  | _ length ih =>
    subst size
    cases before with
    | nil =>
      obtain ⟨rest, rfl, behind⟩ := scan_cons_sign sign h
      exact ⟨[], rest, rfl, behind⟩
    | cons d before =>
      have shorter (p : Char → Bool) : (before.dropWhile p).length < (d :: before).length :=
        Nat.lt_succ_of_le (dropWhile_suffix p).length_le
      rw [cons_append, scan] at h
      split at h
      · exact ih _ (Nat.lt_succ_self _) h rfl
      · split at h
        · split at h
          · cases h
          · next text _ =>
            rw [dropWhile_at_sign (fun _ => isNamePart_of_isNumberPart) sign] at h
            split at h
            · cases h
            · next rest further =>
              cases h
              obtain ⟨front, back, rfl, behind⟩ := ih _ (shorter _) further rfl
              exact ⟨.number text :: front, back, rfl, behind⟩
        · split at h
          · rw [dropWhile_at_sign (fun _ part => part) sign] at h
            split at h
            · cases h
            · next rest further =>
              cases h
              obtain ⟨front, back, rfl, behind⟩ := ih _ (shorter _) further rfl
              exact ⟨_ :: front, back, rfl, behind⟩
          · split at h
            · split at h
              · cases h
              · next rest further =>
                cases h
                obtain ⟨front, back, rfl, behind⟩ := ih _ (Nat.lt_succ_self _) further rfl
                exact ⟨.sign d :: front, back, rfl, behind⟩
            · cases h

end Arith

namespace Infer

variable {want : Ty} {v : View}

theorem arithmetic_phrase (h : arithmetic t raw want v notices = .ok n notices') :
    ∃ units, Arith.scan raw.toList = .ok units ∧ Arith.Phrase units := by
  unfold arithmetic at h
  cases scanned : Arith.scan raw.toList with
  | error e =>
    simp only [scanned] at h
    cases h
  | ok units =>
    simp only [scanned] at h
    obtain ⟨inner, _, run, h⟩ := of_bind h
    obtain ⟨read, front, phrase⟩ := Arith.sum_careful.phrase units (Arith.isWhole_of_reduce _ run)
    cases rest : (Arith.sum units).2 with
    | cons unit rest =>
      simp only [rest] at h
      cases h
    | nil =>
      rw [rest, append_nil] at front
      exact ⟨units, rfl, front ▸ phrase⟩

theorem arithmetic_no_bar (h : arithmetic t raw want v notices = .ok n notices') : '|' ∉ raw.toList := by
  intro bar
  obtain ⟨units, scanned, phrase⟩ := arithmetic_phrase h
  obtain ⟨before, after, text⟩ := append_of_mem bar
  rw [text] at scanned
  obtain ⟨front, back, rfl, -⟩ := Arith.scan_at_sign rfl scanned
  exact phrase.no_bar (by simp)

/-- How the expressions inside of an expression are read. -/
def smaller (toks : List Token) : Sub := fun inner want =>
  if _h : Token.totalWeight inner < Token.totalWeight toks then expression inner want else fault .notSmaller

theorem expression_of_unary {x : Infer Node} (some : toks ≠ [])
    (h : ∀ final, unary (smaller toks) final want toks v notices = (x >>= fun n => pure (n, [])) v notices) :
    expression toks want v notices = x v notices := by
  have read : expression toks want v notices = (unary (smaller toks) (toks.getLastD v.last) want toks >>= fun p => do
      ofExcept (nothingMore (.afterExpression p.1.text) p.2)
      return p.1) v notices := by
    rw [expression, step]
    simp only [isEmpty_eq_false_iff.mpr some, Bool.false_eq_true, if_false]
    rfl
  rw [read, reading_bind, h, reading_bind]
  cases x v notices <;> rfl

theorem expression_number (number : t.kind = .number) (want : Ty) (v : View) (notices : List Notice) :
    expression [t] want v notices = literal (smaller [t]) t want v notices := by
  refine expression_of_unary (cons_ne_nil _ _) fun final => ?_
  simp only [unary, number, reduceCtorEq, if_false, Bool.or_self, decide_false, Bool.false_eq_true, postfixed, primary]
  rw [reading_bind, reading_bind]
  cases literal (smaller [t]) t want v notices with
  | ok n s =>
    change postfixes (smaller [t]) n [] v s = _
    rw [postfixes]
  | error e s => rfl

theorem expression_arithmetic (number : t.kind = .number) (nonempty : Text.trim t.value ≠ "")
    (single : (splitElements 0 none (Text.trim t.value).toList).length ≤ 1) (want : Ty) (v : View)
    (notices : List Notice) : expression [t] want v notices = arithmetic t (Text.trim t.value) want v notices := by
  rw [expression_number number, literal, if_neg nonempty, if_pos single]

theorem arithmetic_of_expression (number : t.kind = .number)
    (single : (splitElements 0 none (Text.trim t.value).toList).length ≤ 1)
    (h : expression [t] want v notices = .ok n notices') :
    Text.trim t.value ≠ "" ∧ arithmetic t (Text.trim t.value) want v notices = .ok n notices' := by
  by_cases empty : Text.trim t.value = ""
  · rw [expression_number number, literal, if_pos empty] at h
    cases h
  · exact ⟨empty, expression_arithmetic number empty single want v notices ▸ h⟩

theorem nameExpr_variable (found : v.find? x.value = some y) :
    nameExpr final x rest v notices = .ok (.node x y.ty (.name y.name y.flat), rest) notices := by
  have seen : (read : Infer View) v notices = .ok v notices := rfl
  unfold nameExpr
  rw [reading_bind, seen]
  dsimp only
  rw [found]
  rfl

theorem postfixes_bar (opens : bar.kind = .pipe) {rest inner after : List Token}
    (ends : Token.untilBar 0 rest = some (inner, after)) (a : Node) :
    postfixes sub a (bar :: rest)
      = (do let i ← sub inner .usize; let n ← index bar a i; postfixes sub n after) := by
  rw [postfixes, if_neg (by simp [opens]), if_pos opens]
  split
  · next missing => cases ends.symm.trans missing
  · next found =>
    cases ends.symm.trans found
    rfl

theorem expression_index (name : x.kind = .ident)
    (found : v.find? x.value = some y) (opens : bar.kind = .pipe) (position : i.kind = .number ∨ i.kind = .ident)
    (closes : bar'.kind = .pipe) (h : Gives v (expression [x, bar, i, bar'] want) n) :
    ∃ p, Gives v (expression [i] .usize) p ∧
      n = .node bar (.view y.ty.resolved p.text) (.index (.node x y.ty (.name y.name y.flat)) p) := by
  obtain ⟨notices, notices', h⟩ := h
  have ends : Token.untilBar 0 [i, bar'] = some ([i], []) := by
    rcases position with kind | kind <;> simp [Token.untilBar, kind, closes, Token.consFst]
  have lighter : Token.totalWeight [i] < Token.totalWeight [x, bar, i, bar'] := by
    have := x.weight_pos
    simp only [Token.totalWeight_cons, Token.totalWeight_nil]
    omega
  have sub : smaller [x, bar, i, bar'] [i] .usize = expression [i] .usize := dif_pos lighter
  have first : unary (smaller [x, bar, i, bar']) bar' want [x, bar, i, bar'] v notices
      = postfixes (smaller [x, bar, i, bar']) (.node x y.ty (.name y.name y.flat)) [bar, i, bar'] v notices := by
    simp only [unary, name, reduceCtorEq, if_false, Bool.or_self, decide_false, Bool.false_eq_true, postfixed,
      primary, opens]
    rw [reading_bind, nameExpr_variable found]
  rw [expression] at h
  change (unary (smaller [x, bar, i, bar']) bar' want [x, bar, i, bar'] >>= fun p => _) v notices = _ at h
  obtain ⟨⟨m, rest⟩, _, read, h⟩ := of_bind h
  rw [first, postfixes_bar opens ends, sub] at read
  obtain ⟨p, _, given, read⟩ := of_bind read
  obtain ⟨_, _, indexed, read⟩ := of_bind read
  obtain ⟨-, -, rfl⟩ := index_ok indexed
  rw [postfixes] at read
  cases read
  cases h
  exact ⟨p, ⟨_, _, given⟩, rfl⟩

theorem mem_trim (dark : Text.isBlank c = false) (mem : c ∈ s.toList) : c ∈ (Text.trim s).toList := by
  obtain ⟨front, back, text, blank, blank'⟩ := Text.exists_trimChars s.toList
  rw [text, mem_append, mem_append] at mem
  rw [Text.trim, String.toList_ofList]
  rcases mem with (mem | mem) | mem
  · rw [blank c mem] at dark
    cases dark
  · exact mem
  · rw [blank' c mem] at dark
    cases dark

/-- Outside of brackets `xs|i|` is read as the element of the variable at the position. A bracket group with a bar in it is
refused, whatever is wanted, unless it is a list. -/
theorem index_outside_brackets {x bar i bar' : Token} {y : Variable} (name : x.kind = .ident)
    (found : v.find? x.value = some y) (opens : bar.kind = .pipe) (position : i.kind = .number ∨ i.kind = .ident)
    (closes : bar'.kind = .pipe) (plain : Gives v (expression [x, bar, i, bar'] want) n) :
    (∃ p, Gives v (expression [i] .usize) p ∧
      n = .node bar (.view y.ty.resolved p.text) (.index (.node x y.ty (.name y.name y.flat)) p)) ∧
    ∀ t : Token, t.kind = .number → '|' ∈ t.value.toList →
      (splitElements 0 none (Text.trim t.value).toList).length ≤ 1 → ∀ want m, ¬Gives v (expression [t] want) m := by
  refine ⟨expression_index name found opens position closes plain, ?_⟩
  rintro t number barred single want m ⟨_, _, accepted⟩
  obtain ⟨-, arithmetic⟩ := arithmetic_of_expression number single accepted
  exact arithmetic_no_bar arithmetic (mem_trim rfl barred)

/-- An element of an array at the position zero, and the same in brackets. -/
theorem index_outside_brackets_array :
    let xs : Variable := { name := "xs", ty := .array .int "3" }
    let v : View := {
      settings := {}
      context := {}
      scope := { top := { kind := .global, visible := [xs] } }
      last := default }
    let word : Token := { (default : Token) with kind := .ident, value := "xs" }
    let bar : Token := { (default : Token) with kind := .pipe }
    let zero : Token := { (default : Token) with kind := .number, value := "0" }
    let group : Token := { (default : Token) with kind := .number, value := "1 + xs|0|" }
    (∃ n, Gives v (expression [word, bar, zero, bar] .int) n) ∧ ∀ want m, ¬Gives v (expression [group] want) m := by
  intro xs v word bar zero group
  have found : v.find? word.value = some xs := by
    unfold v word xs
    cbv
  have plain : Gives v (expression [word, bar, zero, bar] .int) (.node bar (.view xs.ty "0")
      (.index (.node word xs.ty (.name "xs" false)) (.numeral zero "0" .usize))) := by
    refine ⟨[], [], ?_⟩
    unfold zero bar word v xs
    cbv
  have refused := (index_outside_brackets rfl found rfl (.inl rfl) rfl plain).2
  exact ⟨⟨_, plain⟩, refused group rfl (by decide) (by decide)⟩

/-- A program that reads an element of an array is accepted, and refused if the element stands in brackets. -/
theorem bracketed_index_refused :
    (compile Settings.plain (.memory []) "main.imp"
      "main :: () \x7b xs: int[3]; y: int = xs|0|; \x7d").stop.isNone = true ∧
    (compile Settings.plain (.memory []) "main.imp"
      "main :: () \x7b xs: int[3]; y: int = [xs|0|]; \x7d").stop.isSome = true := by
  decide +kernel

end Infer

end Impulse
