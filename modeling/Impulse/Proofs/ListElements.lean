import Impulse.Proofs.Repetition
import Impulse.Proofs.Tiling
import Impulse.Proofs.TypeText
import Impulse.Proofs.WrittenArith

/-!
# Elements of lists

A bracket group without a comma is arithmetic. The elements of a list are arithmetic only if they begin with a digit, a
minus sign or a parenthesis, and all others are cut into tokens and read as expressions, where there are no operators.
-/

namespace Impulse

open List

variable {cs : List Char}

namespace Text

theorem forall_mem_of_all [DecidablePred p] (h : (cs.all fun c => p c) = true) : ∀ c ∈ cs, p c := by
  simpa using h

end Text

namespace Arith

/-- The characters that arithmetic is written with. -/
def IsPlainChar (c : Char) : Prop :=
  Text.isBlank c = true ∨ isNamePart c = true ∨ isSign c = true

theorem IsPlainChar.ne (h : IsPlainChar c) (d : Char) (other : d ∈ ['"', '\'', '[', ']', ':']) : c ≠ d := by
  rintro rfl
  have none : ∀ d ∈ ['"', '\'', '[', ']', ':'], ¬IsPlainChar d := by
    unfold IsPlainChar
    exact Text.forall_mem_of_all (by decide)
  exact none c other h

/-- What scanning says about a text: its characters, and how often each sign occurs. -/
structure Scanned (cs : List Char) (units : List Lexeme) : Prop where
  plain : ∀ c ∈ cs, IsPlainChar c
  count : ∀ c, isSign c = true → cs.count c = units.count (.sign c)

namespace Scanned

theorem run (named : ∀ c ∈ ds, isNamePart c = true) (noSign : ∀ c, u ≠ .sign c) (h : Scanned cs units) :
    Scanned (ds ++ cs) (u :: units) := by
  refine ⟨forall_mem_append.mpr ⟨fun c mem => .inr (.inl (named c mem)), h.plain⟩, fun c sign => ?_⟩
  have none : ds.count c = 0 := by
    refine count_eq_zero.mpr fun mem => ?_
    have part := named c mem
    rw [(isSign_cases sign).2.2] at part
    cases part
  rw [count_append, none, Nat.zero_add, h.count c sign, count_cons_of_ne (noSign c)]

theorem blank (blank : Text.isBlank c = true) (h : Scanned cs units) : Scanned (c :: cs) units := by
  refine ⟨forall_mem_cons.mpr ⟨.inl blank, h.plain⟩, fun d sign => ?_⟩
  have other : c ≠ d := by
    rintro rfl
    rw [(isSign_cases sign).1] at blank
    cases blank
  rw [count_cons_of_ne other, h.count d sign]

theorem sign (sign : isSign c = true) (h : Scanned cs units) : Scanned (c :: cs) (.sign c :: units) := by
  refine ⟨forall_mem_cons.mpr ⟨.inr (.inr sign), h.plain⟩, fun d sign' => ?_⟩
  by_cases same : c = d
  · subst same
    rw [count_cons_self, count_cons_self, h.count c sign]
  · rw [count_cons_of_ne same, count_cons_of_ne (by simpa using same), h.count d sign']

end Scanned

theorem scanned (h : scan cs = .ok units) : Scanned cs units := by
  fun_induction scan cs generalizing units with
  | case1 =>
    cases h
    exact ⟨forall_mem_nil _, fun _ _ => rfl⟩
  | case2 c cs blank ih => exact (ih h).blank blank
  | case5 c cs _ digit text _ rest _ ih =>
    cases h
    have named : ∀ d ∈ c :: cs.takeWhile isNumberPart, isNamePart d = true := by
      refine forall_mem_cons.mpr ⟨by simp [isNamePart, digit], fun d mem => ?_⟩
      exact isNamePart_of_isNumberPart (all_eq_true.mp all_takeWhile d mem)
    have whole := (ih ‹_›).run named (u := .number text) (by simp)
    rwa [cons_append, takeWhile_append_dropWhile] at whole
  | case7 c cs _ _ letter rest _ ih =>
    cases h
    have named : ∀ d ∈ c :: cs.takeWhile isNamePart, isNamePart d = true := by
      refine forall_mem_cons.mpr ⟨?_, all_eq_true.mp all_takeWhile⟩
      rcases Bool.or_eq_true_iff.mp letter with letter | underscore
      · simp [isNamePart, letter]
      · simp [isNamePart, underscore]
    have whole := (ih ‹_›).run named (u := .name (String.ofList (c :: cs.takeWhile isNamePart))) (by simp)
    rwa [cons_append, takeWhile_append_dropWhile] at whole
  | case9 c cs _ _ _ sign rest _ ih =>
    cases h
    exact (ih ‹_›).sign sign
  | case3 | case4 | case6 | case8 | case10 => cases h

theorem Phrase.count_parens (h : Phrase units) : units.count (.sign '(') = units.count (.sign ')') := by
  induction h with
  | number | name | callNone => rfl
  | @call f first more _ _ ih ihs =>
    have others : (more.flatMap (Lexeme.sign ',' :: ·)).count (.sign '(')
        = (more.flatMap (Lexeme.sign ',' :: ·)).count (.sign ')') := by
      rw [count_flatMap, count_flatMap]
      refine congrArg List.sum (map_congr_left fun units mem => ?_)
      simpa using ihs units mem
    simp [ih, others, Nat.add_assoc]
  | negate _ ih | deref _ ih => simpa using ih
  | paren _ ih => simp [ih]
  | @binary op isOp left right _ _ ihl ihr =>
    have other : op ≠ '(' ∧ op ≠ ')' := by
      refine ⟨?_, ?_⟩ <;> rintro rfl <;> rcases isOp with isOp | isOp <;> cases isOp
    simp [ihl, ihr, other.1, other.2]

theorem Phrase.ne_nil (h : Phrase units) : units ≠ [] := by
  induction h <;> simp

/-- No two slashes stand side by side, and none at the ends. -/
structure Calm (units : List Lexeme) : Prop where
  chain : units.IsChain fun a b => ¬(a = .sign '/' ∧ b = .sign '/')
  head : .sign '/' ∉ units.head?
  last : .sign '/' ∉ units.getLast?

namespace Calm

theorem single (other : u ≠ .sign '/') : Calm [u] :=
  ⟨.singleton u, by simpa using other, by simpa using other⟩

theorem append (h : Calm units) (h' : Calm units') : Calm (units ++ units') := by
  refine ⟨isChain_append.mpr ⟨h.chain, h'.chain, ?_⟩, ?_, ?_⟩
  · rintro a mem b - ⟨rfl, -⟩
    exact h.last mem
  · rw [List.head?_append]
    cases first : units.head? with
    | none => exact h'.head
    | some u =>
      have other := h.head
      rwa [first] at other
  · rw [List.getLast?_append]
    cases last : units'.getLast? with
    | none => exact h.last
    | some u =>
      have other := h'.last
      rwa [last] at other

end Calm

theorem Phrase.calm (h : Phrase units) : Calm units := by
  induction h with
  | number | name => exact .single (by simp)
  | callNone f => exact (Calm.single (by simp)).append ((Calm.single (by simp)).append (.single (by simp)))
  | @call f first more _ phrases ih ihs =>
    have others : Calm (more.flatMap (Lexeme.sign ',' :: ·)) := by
      clear phrases
      induction more with
      | nil => exact ⟨.nil, by simp, by simp⟩
      | cons units more ihMore =>
        obtain ⟨here, others⟩ := forall_mem_cons.mp ihs
        exact ((Calm.single (by simp)).append here).append (ihMore others)
    exact (Calm.single (by simp)).append ((Calm.single (by simp)).append ((ih.append others).append (.single (by simp))))
  | negate _ ih => exact (Calm.single (by simp)).append ih
  | deref _ ih => exact ih.append (.single (by simp))
  | paren _ ih => exact (Calm.single (by simp)).append (ih.append (.single (by simp)))
  | @binary op isOp left right phrase phrase' ihl ihr =>
    by_cases slash : op = '/'
    · subst slash
      obtain ⟨u, right, rfl⟩ := exists_cons_of_ne_nil phrase'.ne_nil
      refine ⟨isChain_append.mpr ⟨ihl.chain, isChain_cons_cons.mpr ⟨?_, ihr.chain⟩, ?_⟩, ?_, ?_⟩
      · rintro ⟨-, rfl⟩
        exact ihr.head rfl
      · rintro a mem b - ⟨rfl, -⟩
        exact ihl.last mem
      · rw [List.head?_append_of_ne_nil _ phrase.ne_nil]
        exact ihl.head
      · rw [List.getLast?_append_of_ne_nil _ (cons_ne_nil _ _), List.getLast?_cons_cons]
        exact ihr.last
    · exact ihl.append ((Calm.single (by simpa using slash)).append ihr)

theorem Phrase.no_comment (h : Phrase units) (scanned : scan cs = .ok units) : ¬['/', '/'] <:+: cs := by
  rintro ⟨before, after, rfl⟩
  rw [append_assoc] at scanned
  obtain ⟨front, back, rfl, behind⟩ := scan_at_sign rfl scanned
  obtain ⟨rest, rfl, -⟩ := scan_cons_sign rfl behind
  have apart := (isChain_append.mp h.calm.chain).2.1
  exact (isChain_cons_cons.mp apart).1 ⟨rfl, rfl⟩

end Arith

namespace Lexeme

open Text

theorem read_covers (plain : Arith.IsPlainChar c)
    (noComment : ¬['/', '/'] <+: c :: cs) (h : read comments c cs = .ok l) :
    ∀ d ∈ (c :: cs).take l.size, isNamePart d = true ∨ (symbol? d).isSome = true := by
  cases shape_of_read h with
  | @comment rest _ slash again => exact absurd ⟨rest, by rw [slash, again]; rfl⟩ noComment
  | word first =>
    rw [size_word, take_succ_cons, take_length_takeWhile]
    refine fun d mem => .inl ?_
    rcases mem_cons.mp mem with rfl | mem
    · unfold isNamePart
      rcases Bool.or_eq_true_iff.mp first with letter | underscore
      · simp [letter]
      · simp [underscore]
    · exact all_eq_true.mp all_takeWhile d mem
  | decimal _ digit =>
    intro d mem
    rw [numeral, take_succ_cons, ← prefix_iff_eq_take.mp (numeralTail_front cs)] at mem
    exact .inl (isNamePart_of_mem_numeral digit d mem)
  | group bracket | string bracket | char bracket | pair bracket | colon bracket =>
    exact absurd bracket (plain.ne _ (by decide))
  | symbol known => exact forall_mem_singleton.mpr (.inr (by rw [known]; rfl))

end Lexeme

theorem Tokens.failure_of_operator (plain : ∀ c ∈ cs, Arith.IsPlainChar c)
    (noComment : ¬['/', '/'] <:+: cs) (operator : op ∈ ['+', '-', '*', '/', '%']) (mem : op ∈ cs) :
    (scan comments file p cs).failure.isSome = true := by
  have none : ∀ d ∈ ['+', '-', '*', '/', '%'],
      isSeparator d = false ∧ Lexeme.isNamePart d = false ∧ (Lexeme.symbol? d).isSome = false :=
    Text.forall_mem_of_all (by decide)
  obtain ⟨noSeparator, noPart, noSymbol⟩ := none op operator
  have left : ∀ ds : List Char, op ∈ ds → op ∈ ds.dropWhile isSeparator := by
    intro ds mem
    rw [← takeWhile_append_dropWhile (p := isSeparator) (l := ds)] at mem
    refine (mem_append.mp mem).resolve_left fun blank => ?_
    have separator := all_eq_true.mp all_takeWhile op blank
    rw [noSeparator] at separator
    cases separator
  fun_induction scan comments file p cs with
  | case1 p cs blanks p' none =>
    have more := left cs mem
    rw [none] at more
    cases more
  | case2 => rfl
  | case3 p cs blanks p' c rest found lexeme read token ih =>
    have behind : c :: rest <:+ cs := found ▸ dropWhile_suffix isSeparator
    have here : Arith.IsPlainChar c := plain c (behind.subset (.head _))
    have covers := Lexeme.read_covers here (fun start => noComment (start.isInfix.trans behind.isInfix)) read
    have dropped : (c :: rest).drop lexeme.size <:+ cs := (drop_suffix _ _).trans behind
    have more := left cs mem
    rw [found, ← take_append_drop lexeme.size (c :: rest)] at more
    refine ih (fun d mem => plain d (dropped.subset mem)) (fun part => noComment (part.trans dropped.isInfix)) ?_
    refine (mem_append.mp more).resolve_left fun covered => ?_
    rcases covers op covered with part | symbol
    · rw [noPart] at part
      cases part
    · rw [noSymbol] at symbol
      cases symbol

namespace Infer

theorem splitElements_blanks
    (blank : ∀ c ∈ blanks, Text.isBlank c = true) (h : splitElements depth none rest = part :: parts) :
    splitElements depth none (blanks ++ rest) = (blanks ++ part) :: parts := by
  induction blanks with
  | nil => exact h
  | cons c blanks ih =>
    have other : ∀ d ∈ ['"', '\'', '(', '[', ')', ']', ','], c ≠ d := by
      rintro d mem rfl
      have dark : ∀ d ∈ ['"', '\'', '(', '[', ')', ']', ','], Text.isBlank d = false :=
        Text.forall_mem_of_all (by decide)
      have := blank c (.head _)
      rw [dark c mem] at this
      cases this
    simp only [forall_mem_cons] at other
    rw [cons_append, splitElements]
    simp [other, ih fun d mem => blank d (.tail _ mem), consChar]

/-- The depth of parentheses behind a character. -/
def depthAfter (depth : Int) (c : Char) : Int :=
  if c = '(' then depth + 1 else if c = ')' then depth - 1 else depth

theorem splitElements_cons (plain : c ≠ '"' ∧ c ≠ '\'' ∧ c ≠ '[' ∧ c ≠ ']')
    (inner : ¬(c = ',' ∧ depth = 0)) (cs : List Char) :
    splitElements depth none (c :: cs) = consChar c (splitElements (depthAfter depth c) none cs) := by
  rw [splitElements, depthAfter]
  by_cases opens : c = '('
  · simp [opens]
  · by_cases closes : c = ')'
    · simp [closes]
    · simp only [plain, opens, closes, inner, Bool.or_self, decide_false, Bool.false_eq_true, if_false]

theorem splitElements_single
    (plain : ∀ c ∈ cs, c ≠ '"' ∧ c ≠ '\'' ∧ c ≠ '[' ∧ c ≠ ']') (single : (splitElements depth none cs).length ≤ 1)
    (ends : depth' = depth + cs.count '(' - cs.count ')') (h : splitElements depth' none rest = part :: parts) :
    splitElements depth none (cs ++ rest) = (cs ++ part) :: parts := by
  induction cs generalizing depth with
  | nil =>
    simp only [count_nil, Int.natCast_zero, Int.add_zero, Int.sub_zero] at ends
    subst ends
    exact h
  | cons c cs ih =>
    obtain ⟨here, plain⟩ := forall_mem_cons.mp plain
    have inner : ¬(c = ',' ∧ depth = 0) := by
      rintro ⟨rfl, rfl⟩
      have cut : splitElements 0 none (',' :: cs) = [] :: splitElements 0 none cs := by
        rw [splitElements]
        simp
      have more := (length_splitElements 0 none cs).1
      rw [cut, length_cons] at single
      omega
    rw [splitElements_cons here inner] at single
    have fewer : (splitElements (depthAfter depth c) none cs).length ≤ 1 := by
      generalize splitElements (depthAfter depth c) none cs = parts at single
      cases parts with
      | nil => exact Nat.zero_le _
      | cons _ _ => exact single
    have back : depth' = depthAfter depth c + cs.count '(' - cs.count ')' := by
      rw [ends, depthAfter, count_cons, count_cons]
      by_cases opens : c = '('
      · simp [opens]
        omega
      · by_cases closes : c = ')'
        · simp [closes]
          omega
        · simp [opens, closes]
    rw [cons_append, splitElements_cons here inner, ih plain fewer back]
    rfl

theorem splitElements_twice (scanned : Arith.scan (Text.trim e).toList = .ok units)
    (phrase : Arith.Phrase units) (filled : Text.trim e ≠ "")
    (single : (splitElements 0 none (Text.trim e).toList).length ≤ 1) :
    ∃ front back, (∀ c ∈ front, Text.isBlank c = true) ∧ (∀ c ∈ back, Text.isBlank c = true) ∧
      splitElements 0 none (Text.trim (e ++ ", " ++ e)).toList
        = [(Text.trim e).toList ++ back, front ++ (Text.trim e).toList] := by
  obtain ⟨front, back, text, blank, blank'⟩ := Text.exists_trimChars e.toList
  have tight := Text.tight_trimChars e.toList
  simp only [Text.trim, String.toList_ofList] at scanned single ⊢
  have filled : Text.trimChars e.toList ≠ [] := fun empty => filled (by rw [Text.trim, empty])
  generalize Text.trimChars e.toList = raw at scanned single text tight filled ⊢
  have whole : Text.trimChars (e ++ ", " ++ e).toList = raw ++ back ++ (',' :: (' ' :: front) ++ raw) := by
    have parts : (e ++ ", " ++ e).toList = front ++ (raw ++ back ++ (',' :: (' ' :: front) ++ raw)) ++ back := by
      simp [text]
    rw [parts]
    refine Text.Tight.trimChars_pad ⟨?_, ?_⟩ blank blank'
    · rw [append_assoc, List.head?_append_of_ne_nil _ filled]
      exact tight.head
    · rw [← append_assoc, List.getLast?_append_of_ne_nil _ filled]
      exact tight.last
  have facts := Arith.scanned scanned
  have plain : ∀ c ∈ raw, c ≠ '"' ∧ c ≠ '\'' ∧ c ≠ '[' ∧ c ≠ ']' := fun c mem =>
    have other := (facts.plain c mem).ne
    ⟨other '"' (by decide), other '\'' (by decide), other '[' (by decide), other ']' (by decide)⟩
  have balanced : (0 : Int) = 0 + raw.count '(' - raw.count ')' := by
    rw [facts.count '(' rfl, facts.count ')' rfl, phrase.count_parens]
    omega
  refine ⟨' ' :: front, back, forall_mem_cons.mpr ⟨rfl, blank⟩, blank', ?_⟩
  have second : splitElements 0 none ((' ' :: front) ++ (raw ++ [])) = [(' ' :: front) ++ (raw ++ [])] :=
    splitElements_blanks (forall_mem_cons.mpr ⟨rfl, blank⟩) (splitElements_single plain single balanced rfl)
  rw [append_nil] at second
  have comma : splitElements 0 none (',' :: ((' ' :: front) ++ raw)) = [[], (' ' :: front) ++ raw] := by
    rw [splitElements, ← second]
    simp
  rw [whole, append_assoc]
  have first := splitElements_single plain single balanced (splitElements_blanks blank' comma)
  rw [append_nil] at first
  exact first

/-- The text is a list of an element and the same element again. -/
structure Doubles (text element : String) : Prop where
  many : IsList (Text.trim text)
  texts : elementTexts (Text.trim text) = [element, element]

theorem doubles_twice (scanned : Arith.scan (Text.trim e).toList = .ok units)
    (phrase : Arith.Phrase units) (filled : Text.trim e ≠ "")
    (single : (splitElements 0 none (Text.trim e).toList).length ≤ 1) : Doubles (e ++ ", " ++ e) (Text.trim e) := by
  obtain ⟨front, back, blank, blank', cut⟩ := splitElements_twice scanned phrase filled single
  have tight : Text.Tight (Text.trim e).toList := by
    rw [Text.trim, String.toList_ofList]
    exact Text.tight_trimChars _
  have first : Text.trim (String.ofList ((Text.trim e).toList ++ back)) = Text.trim e := by
    have := tight.trimChars_pad (forall_mem_nil _) blank'
    rw [Text.trim, String.toList_ofList, ← nil_append (_ ++ back), ← append_assoc, this, String.ofList_toList]
  have second : Text.trim (String.ofList (front ++ (Text.trim e).toList)) = Text.trim e := by
    have := tight.trimChars_pad blank (forall_mem_nil _)
    rw [append_nil] at this
    rw [Text.trim, String.toList_ofList, this, String.ofList_toList]
  constructor
  · rw [IsList, cut]
    exact Nat.lt_succ_self 1
  · have parts : ((splitElements 0 none (Text.trim (e ++ ", " ++ e)).toList).map fun cs => Text.trim (String.ofList cs))
        = [Text.trim e, Text.trim e] := by
      rw [cut, map_cons, map_cons, map_nil, first, second]
    unfold elementTexts
    rw [parts]
    simp [filled]

section

variable {v : View} {u : Token} {want : Ty}

/-- The type of the elements of a list: the one that is wanted, or else that of the element. -/
def elementTy (want : Ty) (n : Node) : Ty :=
  if want.isAbsent || want.hasPlaceholder then n.ty else want

/-- The element may stand in a list of the wanted type, or types that do not fit raise warnings only. -/
def Fits (v : View) (want : Ty) (n : Node) : Prop :=
  (elementTy want n).accepts n = true ∨ v.Lax

/-- The list with an element and the same element again. -/
def pair (u : Token) (want : Ty) (n : Node) : Node :=
  .node u (.array (elementTy want n) (toString 2)) (.list [n, n])

theorem checkElements_ok (fits : ∀ n ∈ nodes, ty.accepts n = true ∨ v.Lax)
    (position : Nat) (before : List Notice) : ∃ after, checkElements u ty position nodes v before = .ok () after := by
  induction nodes generalizing position before with
  | nil => exact ⟨before, rfl⟩
  | cons n nodes ih =>
    obtain ⟨here, others⟩ := forall_mem_cons.mp fits
    rw [checkElements]
    by_cases accepted : ty.accepts n = true
    · simp only [accepted, Bool.not_true, Bool.false_eq_true, if_false]
      exact ih others _ _
    · have lax : v.Lax := here.resolve_left accepted
      have warned : mismatch u (.element position n.ty ty) v before
          = .ok () (before ++ [⟨u, .mismatch (.element position n.ty ty)⟩]) := by
        have off : v.settings.feature .strictTypes = false := lax
        change (if v.settings.feature .strictTypes = true then _ else _ : Infer Unit) v before = _
        rw [off]
        rfl
      simp only [accepted, Bool.not_false, if_true]
      rw [reading_bind, warned]
      exact ih others _ _

theorem listLiteral_pair (hsub : RepeatsSub v sub)
    (elem : listWant.resolved.element?.getD .absent = want) {l : Node} :
    Gives v (listLiteral sub u [raw, raw] listWant) l ↔
      ∃ m, Gives v (element sub u want 1 raw) m ∧ Fits v want m ∧ l = pair u want m := by
  have repeats := fun position position' => element_repeats (t := u) hsub want position position' raw
  unfold listLiteral
  rw [elem]
  constructor
  · rintro ⟨before, after, h⟩
    obtain ⟨nodes, _, read, h⟩ := of_bind h
    obtain ⟨_, _, checked, h⟩ := of_bind h
    obtain ⟨m, between, first, read⟩ := of_bind read
    obtain ⟨ms, _, others, read⟩ := of_bind read
    obtain ⟨m', _, second, others⟩ := of_bind others
    obtain ⟨m'', _, second', same⟩ := repeats 1 (1 + 1) m _ _ first between
    cases others
    cases read
    cases h
    cases second.symm.trans second'
    subst same
    have fits := (checkElements_ensures u _ _ 1).of_gives ⟨_, _, checked⟩
    exact ⟨m, ⟨_, _, first⟩, fits m (.head _), rfl⟩
  · rintro ⟨m, ⟨_, _, read⟩, fits, rfl⟩
    obtain ⟨_, between, first, same⟩ := repeats 1 1 m _ _ read []
    subst same
    obtain ⟨_, between', second, same⟩ := repeats 1 (1 + 1) m _ _ read between
    subst same
    have both : ∀ n ∈ [m, m], (elementTy want m).accepts n = true ∨ v.Lax := by simpa [Fits] using fits
    obtain ⟨after, checked⟩ := checkElements_ok (u := u) both 1 between'
    refine ⟨[], after, ?_⟩
    have nodes : elements sub u want 1 [raw, raw] v [] = .ok [m, m] between' := by
      rw [elements, reading_bind, first]
      dsimp only
      rw [reading_bind, elements, reading_bind, second]
      rfl
    have type : (if (want.isAbsent || want.hasPlaceholder) = true then ([m, m].headD .absent).ty else want)
        = elementTy want m := rfl
    rw [reading_bind, nodes]
    dsimp only
    rw [reading_bind, type, checked]
    rfl

theorem smaller_repeats (toks : List Token) : RepeatsSub v (smaller toks) := by
  intro inner want
  unfold smaller
  split
  · exact expression_repeats inner want
  · exact .fault

theorem expression_pair (number : u.kind = .number) (doubles : Doubles u.value raw)
    (elem : listWant.resolved.element?.getD .absent = want) {l : Node} :
    Gives v (expression [u] listWant) l ↔
      ∃ m, Gives v (element (smaller [u]) u want 1 raw) m ∧ Fits v want m ∧ l = pair u want m := by
  have nonempty : Text.trim u.value ≠ "" := by
    intro empty
    have many := doubles.many
    rw [empty, IsList] at many
    exact absurd many (by decide)
  have many : ¬(splitElements 0 none (Text.trim u.value).toList).length ≤ 1 := Nat.not_le_of_lt doubles.many
  rw [← listLiteral_pair (smaller_repeats [u]) elem]
  unfold Gives
  simp only [expression_number number, literal, if_neg nonempty, if_neg many, doubles.texts]

theorem element_unique (h : Gives v (element (smaller [u]) u want position raw) m)
    (h' : Gives v (element (smaller [u]) u want position raw) m') : m' = m := by
  obtain ⟨_, _, h⟩ := h
  obtain ⟨_, _, h'⟩ := h'
  obtain ⟨_, _, again, same⟩ := element_repeats (smaller_repeats [u]) want position position raw m _ _ h _
  cases h'.symm.trans again
  exact same.symm

theorem element_plain (plain : startsArithmetic raw = false) (number : u.kind = .number)
    (many : IsList (Text.trim u.value)) (mem : raw ∈ elementTexts (Text.trim u.value)) :
    Gives v (element (smaller [u]) u want position raw) m ↔
      ∃ toks, Gives v (innerTokens u raw) toks ∧ toks ≠ [] ∧ Gives v (expression toks want) m := by
  have lighter : Ensures v (innerTokens u raw) fun toks => smaller [u] toks want = expression toks want := by
    unfold innerTokens
    refine .read ?_
    dsimp only
    split
    · exact .fail trivial
    · refine .pure (dif_pos ?_)
      rw [Token.totalWeight_cons, Token.totalWeight_nil, Nat.add_zero]
      exact totalWeight_element_lt _ _ number many mem _ fun u => ⟨rfl, rfl⟩
  unfold element
  simp only [plain, Bool.false_eq_true, if_false]
  constructor
  · rintro ⟨_, _, h⟩
    obtain ⟨toks, _, cut, h⟩ := of_bind h
    split at h
    · cases h
    · next filled =>
      rw [lighter.of_gives ⟨_, _, cut⟩] at h
      exact ⟨toks, ⟨_, _, cut⟩, by simpa using filled, ⟨_, _, h⟩⟩
  · rintro ⟨toks, cut, filled, ⟨before, after, read⟩⟩
    have same := lighter.of_gives cut
    obtain ⟨_, _, cut⟩ := cut
    obtain ⟨_, between, again, rfl⟩ := innerTokens_repeats raw toks _ _ cut before
    obtain ⟨_, after', read', rfl⟩ := expression_repeats toks want m _ _ read between
    refine ⟨before, after', ?_⟩
    rw [reading_bind, again]
    dsimp only
    rw [if_neg (by simpa using filled), same]
    exact read'

theorem innerTokens_operator (scanned : Arith.scan raw.toList = .ok units)
    (phrase : Arith.Phrase units) (operator : op ∈ ['+', '-', '*', '/', '%']) (mem : op ∈ raw.toList)
    (toks : List Token) : ¬Gives v (innerTokens u raw) toks := by
  have failed : (tokenize (v.settings.feature .comments) u.file raw).failure.isSome = true :=
    Tokens.failure_of_operator (Arith.scanned scanned).plain (phrase.no_comment scanned) operator mem
  have refused : Ensures v (innerTokens u raw) fun _ => False := by
    unfold innerTokens
    refine .read ?_
    dsimp only
    split
    · exact .fail trivial
    · next whole =>
      rw [whole] at failed
      cases failed
  exact refused.of_gives

theorem Fits.of_alike (alike : n.Alike R m) : Fits v want m ↔ Fits v want n := by
  unfold Fits elementTy
  rw [alike.ty_eq, alike.accepts_eq]

theorem expression_pair_arithmetic
    (starts : startsArithmetic raw = true) (number : u.kind = .number) (doubles : Doubles u.value raw)
    (elem : listWant.resolved.element?.getD .absent = want) (alone : arithmetic t raw want v notices = .ok n notices') :
    ∃ m, n.Alike (fun _ _ => True) m ∧
      ∀ l, Gives v (expression [u] listWant) l ↔ Fits v want n ∧ l = pair u want m := by
  obtain ⟨m, after, again, twins⟩ :=
    arithmetic_repeats (R := fun _ _ => True) (u := u) (fun _ _ => trivial) trivial _ want n _ _ alone []
  have read : Gives v (element (smaller [u]) u want 1 raw) m := by
    refine ⟨[], after, ?_⟩
    rw [element, if_pos starts]
    exact again
  refine ⟨m, twins.alike, fun l => ?_⟩
  rw [expression_pair number doubles elem, ← Fits.of_alike twins.alike]
  constructor
  · rintro ⟨m', given, fits, list⟩
    rw [element_unique read given] at fits list
    exact ⟨fits, list⟩
  · rintro ⟨fits, list⟩
    exact ⟨m, read, fits, list⟩

theorem expression_pair_plain (plain : startsArithmetic raw = false) (number : u.kind = .number)
    (doubles : Doubles u.value raw) (elem : listWant.resolved.element?.getD .absent = want) (l : Node) :
    Gives v (expression [u] listWant) l ↔
      ∃ toks m, Gives v (innerTokens u raw) toks ∧ toks ≠ [] ∧ Gives v (expression toks want) m ∧
        Fits v want m ∧ l = pair u want m := by
  have mem : raw ∈ elementTexts (Text.trim u.value) := doubles.texts ▸ .head _
  rw [expression_pair number doubles elem]
  simp only [element_plain plain number doubles.many mem]
  constructor
  · rintro ⟨m, ⟨toks, cut, nonempty, read⟩, fits, list⟩
    exact ⟨toks, m, cut, nonempty, read, fits, list⟩
  · rintro ⟨toks, m, cut, nonempty, read, fits, list⟩
    exact ⟨m, ⟨toks, cut, nonempty, read⟩, fits, list⟩

/-- A bracket group that is accepted as arithmetic, and the group with its text twice. If the text begins with a digit, a
minus sign or a parenthesis, then the list is accepted exactly if the number fits, and its elements are this number. If
not, then it is accepted exactly if the text, cut into tokens, is an expression that fits; with an operator it never is. -/
theorem pair_accepted {t : Token} {n : Node} (number : t.kind = .number) (number' : u.kind = .number)
    (twice : u.value = t.value ++ ", " ++ t.value)
    (single : (splitElements 0 none (Text.trim t.value).toList).length ≤ 1)
    (elem : listWant.resolved.element?.getD .absent = want) (accepted : Gives v (expression [t] want) n) :
    (startsArithmetic (Text.trim t.value) = true → ∃ m, n.Alike (fun _ _ => True) m ∧
        ∀ l, Gives v (expression [u] listWant) l ↔ Fits v want n ∧ l = pair u want m) ∧
    (startsArithmetic (Text.trim t.value) = false → ∀ l, Gives v (expression [u] listWant) l ↔
        ∃ toks m, Gives v (innerTokens u (Text.trim t.value)) toks ∧ toks ≠ [] ∧ Gives v (expression toks want) m ∧
          Fits v want m ∧ l = pair u want m) ∧
    (startsArithmetic (Text.trim t.value) = false → ∀ op ∈ ['+', '-', '*', '/', '%'], op ∈ t.value.toList →
      ∀ l, ¬Gives v (expression [u] listWant) l) := by
  obtain ⟨_, _, accepted⟩ := accepted
  obtain ⟨filled, alone⟩ := arithmetic_of_expression number single accepted
  obtain ⟨units, scanned, phrase⟩ := arithmetic_phrase alone
  have doubles := doubles_twice scanned phrase filled single
  rw [← twice] at doubles
  refine ⟨fun starts => expression_pair_arithmetic starts number' doubles elem alone,
    fun word => expression_pair_plain word number' doubles elem, fun word op operator mem l given => ?_⟩
  obtain ⟨toks, _, cut, -⟩ := (expression_pair_plain word number' doubles elem l).mp given
  have dark : ∀ c ∈ ['+', '-', '*', '/', '%'], Text.isBlank c = false := Text.forall_mem_of_all (by decide)
  exact innerTokens_operator scanned phrase operator (mem_trim (dark op operator) mem) toks cut

end

/-- Twice a sum in parentheses is a list, and twice the sum without them is not. -/
theorem pair_accepted_sum :
    let x : Variable := { name := "x", ty := .int }
    let v : View := {
      settings := {}
      context := {}
      scope := { top := { kind := .global, visible := [x] } }
      last := default }
    let group (text : String) : Token := { (default : Token) with kind := .number, value := text }
    (∃ l, Gives v (expression [group "(x + 1), (x + 1)"] (.array .int "2")) l) ∧
      (∃ n, Gives v (expression [group "x + 1"] .int) n) ∧
      ∀ l, ¬Gives v (expression [group "x + 1, x + 1"] (.array .int "2")) l := by
  intro x v group
  have sum : ∀ text ∈ ["(x + 1)", "x + 1"], Gives v (expression [group text] .int) (.node (group text) .int (.number "(x + 1)"
      (.node (group text) .int (.binary '+' (.node (group text) .int (.name "x" false)) (.numeral (group text) "1" .int))))) := by
    intro text mem
    refine ⟨[], [], ?_⟩
    unfold group v x
    rcases mem_pair.mp mem with rfl | rfl
    · cbv
    · cbv
  have single : ∀ text ∈ ["(x + 1)", "x + 1"], (splitElements 0 none (Text.trim text).toList).length ≤ 1 := by decide
  have elem : (Ty.array .int "2").resolved.element?.getD .absent = .int := by rfl
  have first := sum "(x + 1)" (by decide)
  have second := sum "x + 1" (by decide)
  have twice : (group "(x + 1), (x + 1)").value = (group "(x + 1)").value ++ ", " ++ (group "(x + 1)").value := by
    unfold group
    decide
  have twice' : (group "x + 1, x + 1").value = (group "x + 1").value ++ ", " ++ (group "x + 1").value := by
    unfold group
    decide
  obtain ⟨m, -, given⟩ := (pair_accepted rfl rfl twice (single _ (by decide)) elem first).1 (by decide)
  refine ⟨⟨_, (given _).mpr ⟨.inl ?_, rfl⟩⟩, ⟨_, second⟩, ?_⟩
  · cbv
  · exact (pair_accepted rfl rfl twice' (single _ (by decide)) elem second).2.2 (by decide) '+' (by decide) (by decide)

/-- A program with a sum in brackets is accepted, and refused with the sum twice. -/
theorem sums_refused :
    (compile Settings.plain (.memory []) "main.imp"
      "main :: () \x7b x: int; y: int = [x + 1]; \x7d").stop.isNone = true ∧
    (compile Settings.plain (.memory []) "main.imp"
      "main :: () \x7b x: int; ys: int[2] = [x + 1, x + 1]; \x7d").stop.isSome = true := by
  decide +kernel

end Infer

end Impulse
