import Impulse.Arith
import Mathlib.Data.List.Chain

/-!
# Formulas and their texts

A formula is a tree of integer arithmetic over numerals and constants. It is written with blanks wherever one likes and
with the parentheses that precedence and grouping to the left ask for; parentheses that are not needed can be written
too, as a part of the formula. What is written is scanned and read back into the tree it came from.
-/

namespace Impulse

open List

variable
  (first : Fin 10)

namespace Text

def apart (rs qs : List (Nat × Nat)) : Bool :=
  rs.all fun r => qs.all fun q => Nat.blt r.2 q.1 || Nat.blt q.2 r.1

theorem inRanges_eq_false (h : apart rs qs = true) (inside : inRanges rs c = true) :
    inRanges qs c = false := by
  obtain ⟨r, mem, between⟩ := any_eq_true.mp inside
  refine any_eq_false.mpr fun q here both => ?_
  have away := all_eq_true.mp (all_eq_true.mp h r mem) q here
  simp only [Bool.or_eq_true, Nat.blt_eq, Bool.and_eq_true, decide_eq_true_eq] at away between both
  omega

theorem letter_cases (h : isLetter c = true) : isDigit c = false ∧ isBlank c = false := by
  by_cases ascii : c.toNat < 128
  · have all : ∀ n < 128, (Char.ofNat n).isAlpha = true →
        (Char.ofNat n).isDigit = false ∧ inRanges blankRanges (Char.ofNat n) = false := by decide
    have here := all c.toNat ascii
    rw [Char.ofNat_toNat] at here
    simp only [isLetter, if_pos ascii] at h
    simp only [isDigit, if_pos ascii, isBlank]
    exact here h
  · have digits : apart letterRanges digitRanges = true := by decide +kernel
    have blanks : apart letterRanges blankRanges = true := by decide +kernel
    simp only [isLetter, if_neg ascii] at h
    simp only [isDigit, if_neg ascii, isBlank]
    exact ⟨inRanges_eq_false digits h, inRanges_eq_false blanks h⟩

theorem isBlank_of_isDigit (h : isDigit c = true) : isBlank c = false := by
  by_cases ascii : c.toNat < 128
  · have all : ∀ n < 128, (Char.ofNat n).isDigit = true → inRanges blankRanges (Char.ofNat n) = false := by decide
    have here := all c.toNat ascii
    rw [Char.ofNat_toNat] at here
    simp only [isDigit, if_pos ascii] at h
    exact here h
  · have blanks : apart digitRanges blankRanges = true := by decide +kernel
    simp only [isDigit, if_neg ascii] at h
    exact inRanges_eq_false blanks h

theorem digitsValue?_append (acc : Nat) (cs ds : List Char) :
    digitsValue? acc (cs ++ ds) = (digitsValue? acc cs).bind fun n => digitsValue? n ds := by
  induction cs generalizing acc with
  | nil => rfl
  | cons c cs ih =>
    rw [cons_append, digitsValue?, digitsValue?]
    split
    · exact ih _
    · rfl

theorem isAsciiDigit_of_digitsValue? (h : digitsValue? acc cs = some n) :
    ∀ c ∈ cs, isAsciiDigit c = true := by
  induction cs generalizing acc with
  | nil => exact forall_mem_nil _
  | cons c cs ih =>
    rw [digitsValue?] at h
    split at h
    · next digit => exact forall_mem_cons.mpr ⟨digit, ih h⟩
    · cases h

theorem isNumber_of_digits (text : s.toList = c :: cs)
    (digits : ∀ d ∈ c :: cs, isAsciiDigit d = true) : isNumber s = true := by
  obtain ⟨first, rest⟩ := forall_mem_cons.mp digits
  have tail (point : Bool) : isNumberTail point cs = true := by
    clear text digits
    induction cs with
    | nil => rfl
    | cons d cs ih =>
      obtain ⟨digit, more⟩ := forall_mem_cons.mp rest
      rw [isNumberTail, if_pos digit, ih more]
  unfold isNumber
  simp only [text, first, tail, Bool.and_self]

theorem natural?_eq (nonempty : cs ≠ []) : natural? cs = digitsValue? 0 cs := by
  cases cs with
  | nil => exact absurd rfl nonempty
  | cons c cs => rfl

theorem integer?_unsigned (minus : s.toList.head? ≠ some '-') (plus : s.toList.head? ≠ some '+') :
    integer? s = (natural? s.toList).map Int.ofNat := by
  unfold integer?
  split
  · next cs eq => exact absurd (congrArg List.head? eq) minus
  · next cs eq => exact absurd (congrArg List.head? eq) plus
  · rfl

theorem integer?_negative (text : s.toList = '-' :: cs) :
    integer? s = (natural? cs).bind fun n => some (-(n : Int)) := by
  unfold integer?
  split
  · next cs' eq =>
    obtain rfl : cs = cs' := (List.cons.inj (text.symm.trans eq)).2
    cases natural? cs <;> rfl
  · next eq => exact absurd (List.cons.inj (text.symm.trans eq)).1 (by decide)
  · next other _ => exact absurd text (other cs)

theorem integer?_cases (h : integer? s = some z) : ∃ cs n, natural? cs = some n ∧
    (s.toList = cs ∧ z = n ∨ s.toList = '-' :: cs ∧ z = -n ∨ s.toList = '+' :: cs ∧ z = n) := by
  by_cases minus : ∃ cs, s.toList = '-' :: cs
  · obtain ⟨cs, text⟩ := minus
    rw [integer?_negative text] at h
    obtain ⟨n, read, eq⟩ := Option.bind_eq_some_iff.mp h
    exact ⟨cs, n, read, .inr (.inl ⟨text, (Option.some.inj eq).symm⟩)⟩
  · unfold integer? at h
    split at h
    · next cs text => exact absurd ⟨cs, text⟩ minus
    · next cs text =>
      obtain ⟨n, read, eq⟩ := Option.map_eq_some_iff.mp h
      exact ⟨cs, n, read, .inr (.inr ⟨text, eq.symm⟩)⟩
    · obtain ⟨n, read, eq⟩ := Option.map_eq_some_iff.mp h
      exact ⟨_, n, read, .inl ⟨rfl, eq.symm⟩⟩

theorem digitsValue?_toDigits (n : Nat) : digitsValue? 0 (Nat.toDigits 10 n) = some n := by
  have digit : ∀ d < 10, isAsciiDigit d.digitChar = true ∧ d.digitChar.toNat - '0'.toNat = d := by decide
  induction n using Nat.strongRecOn with
  | ind n ih =>
    by_cases small : n < 10
    · rw [Nat.toDigits_of_lt_base small, digitsValue?, if_pos (digit n small).1, (digit n small).2]
      simp [digitsValue?]
    · have last := digit (n % 10) (Nat.mod_lt n (by decide))
      rw [Nat.toDigits_of_base_le (by decide) (Nat.not_lt.mp small), digitsValue?_append, ih (n / 10) (by omega)]
      dsimp only [Option.bind]
      rw [digitsValue?, if_pos last.1, last.2, digitsValue?]
      congr 1
      omega

theorem toDigits_head (n : Nat) : ∀ c ∈ (Nat.toDigits 10 n).head?, isAsciiDigit c = true := fun c first =>
  isAsciiDigit_of_digitsValue? (digitsValue?_toDigits n) c (mem_of_mem_head? first)

theorem integer?_toString (z : Int) : integer? (toString z) = some z := by
  have natural (n : Nat) : natural? (Nat.toDigits 10 n) = some n := by
    rw [natural?_eq (Nat.toDigits_ne_nil), digitsValue?_toDigits]
  cases z with
  | ofNat n =>
    have text : (toString (Int.ofNat n)).toList = Nat.toDigits 10 n := String.toList_ofList
    have other (c : Char) (sign : isAsciiDigit c = false) : (toString (Int.ofNat n)).toList.head? ≠ some c := by
      intro first
      rw [text] at first
      rw [toDigits_head n c first] at sign
      cases sign
    rw [integer?_unsigned (other '-' (by decide)) (other '+' (by decide)), text, natural]
    rfl
  | negSucc n =>
    have text : (toString (Int.negSucc n)).toList = '-' :: Nat.toDigits 10 (n + 1) := by
      have digits : (Nat.repr (n + 1)).toList = Nat.toDigits 10 (n + 1) := String.toList_ofList
      show ("-" ++ Nat.repr (n + 1)).toList = _
      rw [String.toList_append, digits]
      rfl
    rw [integer?_negative text, natural]
    rfl

theorem contains_point (h : integer? s = some z) : contains s '.' = false := by
  obtain ⟨cs, n, read, text⟩ := integer?_cases h
  have digits : '.' ∉ cs := by
    intro point
    rw [natural?_eq (ne_nil_of_mem point)] at read
    exact absurd (isAsciiDigit_of_digitsValue? read _ point) (by decide)
  unfold contains
  rw [Bool.eq_false_iff, ne_eq, contains_iff_mem]
  rcases text with ⟨text, -⟩ | ⟨text, -⟩ | ⟨text, -⟩
  · rwa [text]
  · rw [text]
    exact not_mem_cons_of_ne_of_not_mem (by decide) digits
  · rw [text]
    exact not_mem_cons_of_ne_of_not_mem (by decide) digits

end Text

inductive Operation
  | add
  | sub
  | mul
  | div
  | mod

namespace Operation

def sign : Operation → Char
  | add => '+'
  | sub => '-'
  | mul => '*'
  | div => '/'
  | mod => '%'

def level : Operation → Nat
  | add => 0
  | sub => 0
  | mul => 1
  | div => 1
  | mod => 1

/-- What an operator gives. Division goes toward zero, the remainder has the sign of the dividend, and nothing is
divided by zero. -/
def on? : Operation → Int → Int → Option Int
  | add, a, b => some (a + b)
  | sub, a, b => some (a - b)
  | mul, a, b => some (a * b)
  | div, a, b => if b = 0 then none else some (a.tdiv b)
  | mod, a, b => if b = 0 then none else some (a.tmod b)

def divides : Operation → Bool
  | add => false
  | sub => false
  | mul => false
  | div => true
  | mod => true

theorem on?_eq_none (op : Operation) (a b : Int) : op.on? a b = none ↔ op.divides = true ∧ b = 0 := by
  cases op <;> simp [on?, divides]

end Operation

def digitChar (d : Fin 10) : Char :=
  Nat.digitChar d

/-- Trees of integer arithmetic. A numeral has at least one digit; its digits are listed from the left. -/
inductive Formula
  | numeral (first : Fin 10) (rest : List (Fin 10))
  | constant (name : String)
  | negate (operand : Formula)
  | binary (op : Operation) (left right : Formula)
  /-- Parentheses, needed or not. -/
  | group (inner : Formula)

namespace Formula

/-- How tightly a formula holds together: a sum, a product, a minus sign in front, or anything else. -/
def level : Formula → Nat
  | numeral _ _ => 3
  | constant _ => 3
  | negate _ => 2
  | binary op _ _ => op.level
  | group _ => 3

def enclose (needed : Bool) (units : List Arith.Lexeme) : List Arith.Lexeme :=
  if needed then .sign '(' :: (units ++ [.sign ')']) else units

def encloseTree (needed : Bool) (tree : Arith) : Arith :=
  if needed then .paren tree true else tree

def numeralText (first : Fin 10) (rest : List (Fin 10)) : String :=
  String.ofList ((first :: rest).map digitChar)

/-- How a formula is written, with the parentheses that are needed. An operator groups to the left, so its right operand
must hold together more tightly than itself. -/
def units : Formula → List Arith.Lexeme
  | numeral first rest => [.number (numeralText first rest)]
  | constant name => [.name name]
  | negate operand => .sign '-' :: enclose (operand.level < 2) operand.units
  | binary op left right =>
    enclose (left.level < op.level) left.units ++ .sign op.sign :: enclose (right.level ≤ op.level) right.units
  | group inner => enclose true inner.units

def tree : Formula → Arith
  | numeral first rest => .number (numeralText first rest)
  | constant name => .name name
  | negate operand => .negate (encloseTree (operand.level < 2) operand.tree)
  | binary op left right =>
    .binary op.sign (encloseTree (left.level < op.level) left.tree) (encloseTree (right.level ≤ op.level) right.tree)
  | group inner => encloseTree true inner.tree

def constants : Formula → List String
  | numeral _ _ => []
  | constant name => [name]
  | negate operand => operand.constants
  | binary _ left right => left.constants ++ right.constants
  | group inner => inner.constants

/-- The exact value of a formula, given those of the constants. There is none if something is divided by zero. -/
def value? (known : String → Option Int) : Formula → Option Int
  | numeral first rest => some ((first :: rest).foldl (fun n d => n * 10 + d.val) 0 : Nat)
  | constant name => known name
  | negate operand => (operand.value? known).bind fun a => some (0 - a)
  | binary op left right => (left.value? known).bind fun a => (right.value? known).bind fun b => op.on? a b
  | group inner => inner.value? known

def operators : Formula → List Formula
  | numeral _ _ => []
  | constant _ => []
  | negate operand => operand.operators ++ [negate operand]
  | binary op left right => left.operators ++ right.operators ++ [binary op left right]
  | group inner => inner.operators

/-- Some divisor has the value zero. -/
def DividesByZero (known : String → Option Int) (e : Formula) : Prop :=
  ∃ op left right, binary op left right ∈ e.operators ∧ op.divides = true ∧ right.value? known = some 0

end Formula

namespace Arith

/-- A name that can be written. -/
structure IsWord (name : String) : Prop where
  starts : ∃ c cs, name.toList = c :: cs ∧ (Text.isLetter c = true ∨ c = '_') ∧ ∀ d ∈ cs, isNamePart d = true

/-- The units that formulas are written with. -/
inductive Lexeme.Plain : Lexeme → Prop
  | number (first : Fin 10) (rest : List (Fin 10)) : Plain (.number (Formula.numeralText first rest))
  | name {name : String} (h : IsWord name) : Plain (.name name)
  | sign {c : Char} (h : isSign c = true) : Plain (.sign c)

def Lexeme.IsSign (u : Lexeme) : Prop :=
  ∃ c, isSign c = true ∧ u = .sign c

/-- Texts that units can be written as: there are any blanks in front of each of them, and behind the last. -/
inductive Spaced : List Lexeme → List Char → Prop
  | nil {blanks : List Char} (h : ∀ c ∈ blanks, Text.isBlank c = true) : Spaced [] blanks
  | cons {blanks chars : List Char} {units : List Lexeme} (h : ∀ c ∈ blanks, Text.isBlank c = true) (u : Lexeme)
      (further : Spaced units chars) : Spaced (u :: units) (blanks ++ u.text.toList ++ chars)

/-- A text that no name or number goes on in. -/
def Stops (chars : List Char) : Prop :=
  ∀ c ∈ chars.head?, Text.isBlank c = true ∨ isSign c = true

theorem isSign_cases (h : isSign c = true) :
    Text.isBlank c = false ∧ Text.isDigit c = false ∧ isNamePart c = false := by
  have all : (['+', '-', '*', '/', '%', '(', ')', '|', '^', ','].all fun c =>
      !Text.isBlank c && !Text.isDigit c && !isNamePart c) = true := by decide
  simpa [and_assoc] using all_eq_true.mp all c (contains_iff_mem.mp h)

theorem not_isNamePart (h : Text.isBlank c = true ∨ isSign c = true) : isNamePart c = false := by
  rcases h with blank | sign
  · unfold isNamePart
    refine Bool.eq_false_iff.mpr fun part => ?_
    simp only [Bool.or_eq_true, beq_iff_eq] at part
    rcases part with ((letter | digit) | rfl) | rfl
    · rw [(Text.letter_cases letter).2] at blank
      cases blank
    · rw [Text.isBlank_of_isDigit digit] at blank
      cases blank
    · revert blank
      decide
    · revert blank
      decide
  · exact (isSign_cases sign).2.2

theorem isNamePart_of_isNumberPart (h : isNumberPart c = true) : isNamePart c = true := by
  unfold isNumberPart at h
  unfold isNamePart
  simp only [Bool.or_eq_true] at h ⊢
  rcases h with digit | point
  · exact .inl (.inl (.inr digit))
  · exact .inr point

theorem run_append (least : ∀ c, p c = true → isNamePart c = true) (run : ∀ c ∈ cs, p c = true)
    (stops : Stops chars) : (cs ++ chars).takeWhile p = cs ∧ (cs ++ chars).dropWhile p = chars := by
  have stop : chars.takeWhile p = [] ∧ chars.dropWhile p = chars := by
    cases chars with
    | nil => exact ⟨rfl, rfl⟩
    | cons c chars =>
      have last : ¬p c = true := fun part => by
        have name := least c part
        rw [not_isNamePart (stops c rfl)] at name
        cases name
      exact ⟨takeWhile_cons_of_neg last, dropWhile_cons_of_neg last⟩
  rw [takeWhile_append_of_pos run, dropWhile_append_of_pos run, stop.1, stop.2]
  exact ⟨append_nil _, rfl⟩

theorem scan_blanks (h : ∀ c ∈ blanks, Text.isBlank c = true) (chars : List Char) :
    scan (blanks ++ chars) = scan chars := by
  induction blanks with
  | nil => rfl
  | cons c blanks ih =>
    obtain ⟨first, others⟩ := forall_mem_cons.mp h
    rw [cons_append, scan, if_pos first, ih others]

theorem digitChar_cases (d : Fin 10) :
    Text.isBlank (digitChar d) = false ∧ Text.isDigit (digitChar d) = true ∧ Text.isAsciiDigit (digitChar d) = true ∧
      (digitChar d).toNat - '0'.toNat = d := by
  revert d
  decide

theorem isNumber_numeralText (rest : List (Fin 10)) : Text.isNumber (Formula.numeralText first rest) = true := by
  refine Text.isNumber_of_digits String.toList_ofList ?_
  intro c mem
  obtain ⟨d, -, rfl⟩ : ∃ d ∈ first :: rest, digitChar d = c := mem_map.mp mem
  exact (digitChar_cases d).2.2.1

theorem scan_number (rest : List (Fin 10)) (stops : Stops chars) (further : scan chars = .ok units) :
    scan ((Formula.numeralText first rest).toList ++ chars) =
      .ok (.number (Formula.numeralText first rest) :: units) := by
  have digits : ∀ c ∈ rest.map digitChar, isNumberPart c = true := by
    intro c h
    obtain ⟨d, -, rfl⟩ := mem_map.mp h
    unfold isNumberPart
    rw [(digitChar_cases d).2.1]
    rfl
  obtain ⟨taken, left⟩ := run_append (fun _ => isNamePart_of_isNumberPart) digits stops
  obtain ⟨blank, digit, -⟩ := digitChar_cases first
  have number : scanNumber (digitChar first) (rest.map digitChar ++ chars) = .ok (Formula.numeralText first rest) := by
    unfold scanNumber
    dsimp only
    rw [taken, left]
    have isNumber : Text.isNumber (String.ofList (digitChar first :: rest.map digitChar)) = true :=
      isNumber_numeralText first rest
    cases chars with
    | nil =>
      dsimp only
      rw [if_pos isNumber]
      rfl
    | cons next chars =>
      have stop := not_isNamePart (stops next rfl)
      unfold isNamePart at stop
      simp only [Bool.or_eq_false_iff] at stop
      dsimp only
      rw [stop.1.1.1, stop.1.2, if_neg (by simp), if_pos isNumber]
      rfl
  have text : (Formula.numeralText first rest).toList ++ chars = digitChar first :: (rest.map digitChar ++ chars) := by
    rw [Formula.numeralText, String.toList_ofList]
    rfl
  rw [text, scan, if_neg (by simp [blank]), if_pos digit, number]
  dsimp only
  rw [left, further]

theorem scan_word {name : String} (word : IsWord name) (stops : Stops chars)
    (further : scan chars = .ok units) : scan (name.toList ++ chars) = .ok (.name name :: units) := by
  obtain ⟨c, cs, text, starts, parts⟩ := word.starts
  obtain ⟨taken, left⟩ := run_append (fun _ h => h) parts stops
  have first : Text.isBlank c = false ∧ Text.isDigit c = false := by
    rcases starts with letter | rfl
    · exact (Text.letter_cases letter).symm
    · decide
  have isLetter : (Text.isLetter c || c == '_') = true := by simpa using starts
  have whole : String.ofList (c :: cs) = name := by rw [← text, String.ofList_toList]
  rw [text, cons_append, scan, if_neg (by simp [first.1]), if_neg (by simp [first.2]), if_pos isLetter, left,
    further]
  dsimp only
  rw [taken, whole]

theorem scan_sign (h : isSign c = true)
    (further : scan chars = .ok units) : scan (c :: chars) = .ok (.sign c :: units) := by
  obtain ⟨blank, digit, part⟩ := isSign_cases h
  unfold isNamePart at part
  simp only [Bool.or_eq_false_iff] at part
  rw [scan, if_neg (by simp [blank]), if_neg (by simp [digit]), part.1.1.1, part.1.2, if_neg (by simp), if_pos h,
    further]

theorem Spaced.stops (h : Spaced units chars)
    (sign : ∀ u ∈ units.head?, u.IsSign) : Stops chars := by
  intro c first
  cases h with
  | nil blank => exact .inl (blank c (mem_of_mem_head? first))
  | @cons blanks chars units blank u further =>
    obtain ⟨d, isSign, rfl⟩ := sign u rfl
    cases blanks with
    | nil =>
      obtain rfl : d = c := by simpa [Lexeme.text] using first
      exact .inr isSign
    | cons b blanks =>
      obtain rfl : b = c := by simpa using first
      exact .inl (blank b mem_cons_self)

/-- Units that are written are scanned, if there is a sign between any two of them that would run together. -/
theorem scan_spaced (h : Spaced units chars) (plain : ∀ u ∈ units, u.Plain)
    (chain : units.IsChain fun u w => u.IsSign ∨ w.IsSign) : scan chars = .ok units := by
  induction h with
  | nil blank =>
    have nothing := scan_blanks blank []
    rw [append_nil] at nothing
    rw [nothing, scan]
  | @cons blanks chars units blank u further ih =>
    obtain ⟨first, others⟩ := forall_mem_cons.mp plain
    have rest := ih others chain.tail
    have stops (word : ¬u.IsSign) : Stops chars := by
      refine further.stops fun w next => ?_
      cases units with
      | nil => cases next
      | cons w' units =>
        obtain rfl : w' = w := by simpa using next
        exact (isChain_cons_cons.mp chain).1.resolve_left word
    rw [append_assoc, scan_blanks blank]
    cases first with
    | number first digits => exact scan_number first digits (stops (by rintro ⟨c, -, ⟨⟩⟩)) rest
    | name word => exact scan_word word (stops (by rintro ⟨c, -, ⟨⟩⟩)) rest
    | @sign c isSign =>
      have text : (Lexeme.sign c).text.toList = [c] := by simp [Lexeme.text]
      rw [text]
      exact scan_sign isSign rest

/-- A reader of sums reads what is shorter than the given size. -/
def ReadsShorter (reader : List Lexeme → Parsed) (size : Nat) : Prop :=
  ∀ units, units.length < size → reader units = sum units

/-- What can stand behind a formula in a longer one. -/
def Behind (rest : List Lexeme) : Prop :=
  ∀ u ∈ rest.head?, ∃ c, u = .sign c ∧ (c = ')' ∨ isSumOp c = true ∨ isProductOp c = true)

/-- Reading a sum, given how sums in parentheses are read. -/
def sumWith (reader : List Lexeme → Parsed) (units : List Lexeme) : Parsed :=
  chain isSumOp (product reader) (product reader units).1 (product reader units).2

theorem exists_sumWith (units : List Lexeme) :
    ∃ reader, ReadsShorter reader units.length ∧ sum units = sumWith reader units := by
  refine ⟨fun inner => if _h : inner.length < units.length then sum inner else (.stuck, []), fun _ h => dif_pos h, ?_⟩
  rw [sum]
  rfl

/-- The units are read as a tree with no operator outside of parentheses. -/
def ReadsUnary (units : List Lexeme) (tree : Arith) : Prop :=
  ∀ reader rest, ReadsShorter reader (units ++ rest).length → Behind rest → unary reader (units ++ rest) = (tree, rest)

/-- The units are read as the beginning of a product. -/
def ReadsProduct (units : List Lexeme) (tree : Arith) : Prop :=
  ∀ reader rest, ReadsShorter reader (units ++ rest).length → Behind rest →
    product reader (units ++ rest) = chain isProductOp (unary reader) tree rest

/-- The units are read as the beginning of a sum. -/
def ReadsSum (units : List Lexeme) (tree : Arith) : Prop :=
  ∀ reader rest, ReadsShorter reader (units ++ rest).length → Behind rest →
    (∀ c, rest.head? = some (.sign c) → isProductOp c = false) →
    sumWith reader (units ++ rest) = chain isSumOp (product reader) tree rest

theorem ReadsShorter.mono (h : ReadsShorter reader n) (le : m ≤ n) : ReadsShorter reader m :=
  fun units short => h units (Nat.lt_of_lt_of_le short le)

theorem behind_cons (h : c = ')' ∨ isSumOp c = true ∨ isProductOp c = true) (rest : List Lexeme) :
    Behind (.sign c :: rest) := by
  intro u first
  obtain rfl : Lexeme.sign c = u := by simpa using first
  exact ⟨c, rfl, h⟩

theorem postfixes_behind (h : Behind rest) (operand : Arith) : postfixes reader operand rest = (operand, rest) := by
  cases rest with
  | nil => rw [postfixes] <;> simp
  | cons u rest =>
    obtain ⟨c, rfl, goesOn⟩ := h u rfl
    have other : c ≠ '^' ∧ c ≠ '|' := by
      constructor
      all_goals
        rintro rfl
        revert goesOn
        decide
    rw [postfixes]
    · intro rest' eq
      cases eq
      exact other.1 rfl
    · intro rest' eq
      cases eq
      exact other.2 rfl

theorem chain_stop (left : Arith)
    (stop : ∀ c, rest.head? = some (.sign c) → isOp c = false) : chain isOp operand left rest = (left, rest) := by
  rw [chain.eq_def]
  split
  · next op rest' => rw [stop op rfl, if_neg (by simp)]
  · rfl

theorem chain_step (left : Arith) (isOp_op : isOp op = true) (read : operand (units ++ rest) = (tree, rest)) :
    chain isOp operand left (.sign op :: (units ++ rest)) = chain isOp operand (.binary op left tree) rest := by
  rw [chain, if_pos isOp_op, read]
  dsimp only
  rw [dif_pos (by simp)]

theorem ReadsUnary.product (h : ReadsUnary units tree) : ReadsProduct units tree := by
  intro reader rest agrees behind
  unfold Arith.product
  rw [h reader rest agrees behind]

theorem ReadsProduct.sum (h : ReadsProduct units tree) : ReadsSum units tree := by
  intro reader rest agrees behind stop
  unfold sumWith
  rw [h reader rest agrees behind, chain_stop tree stop]

theorem ReadsSum.read (h : ReadsSum units tree) (behind : Behind rest)
    (stop : ∀ c, rest.head? = some (.sign c) → isProductOp c = false ∧ isSumOp c = false) :
    Arith.sum (units ++ rest) = (tree, rest) := by
  obtain ⟨reader, agrees, eq⟩ := exists_sumWith (units ++ rest)
  rw [eq, h reader rest agrees behind fun c first => (stop c first).1]
  exact chain_stop tree fun c first => (stop c first).2

theorem readsUnary_number (text : String) : ReadsUnary [.number text] (.number text) := by
  intro reader rest _ behind
  exact postfixes_behind behind _

theorem readsUnary_name (text : String) : ReadsUnary [.name text] (.name text) := by
  intro reader rest _ behind
  have alone : primary reader (.name text :: rest) = (.name text, rest) := by
    cases rest with
    | nil => rfl
    | cons u rest =>
      obtain ⟨c, rfl, goesOn⟩ := behind u rfl
      have other : c ≠ '(' := by
        rintro rfl
        revert goesOn
        decide
      rw [primary]
      · intro rest' eq
        cases eq
        exact other rfl
      · intro rest' eq
        cases eq
        exact other rfl
  show postfixes reader (primary reader (.name text :: rest)).1 (primary reader (.name text :: rest)).2 = _
  rw [alone]
  exact postfixes_behind behind _

theorem ReadsUnary.negate (h : ReadsUnary units tree) : ReadsUnary (.sign '-' :: units) (.negate tree) := by
  intro reader rest agrees behind
  have inner := h reader rest (agrees.mono (by simp)) behind
  rw [cons_append, unary, inner]

theorem ReadsSum.enclose (h : ReadsSum units tree) :
    ReadsUnary (.sign '(' :: (units ++ [.sign ')'])) (.paren tree true) := by
  intro reader rest agrees behind
  have stop : ∀ c, (Lexeme.sign ')' :: rest).head? = some (.sign c) → isProductOp c = false ∧ isSumOp c = false := by
    intro c first
    obtain rfl : ')' = c := by simpa using first
    decide
  have inner : reader (units ++ .sign ')' :: rest) = (tree, .sign ')' :: rest) := by
    rw [agrees _ (by simp), h.read (behind_cons (.inl rfl) rest) stop]
  have text : Lexeme.sign '(' :: (units ++ [.sign ')']) ++ rest = .sign '(' :: (units ++ .sign ')' :: rest) := by simp
  have whole : primary reader (.sign '(' :: (units ++ .sign ')' :: rest)) = (.paren tree true, rest) := by
    rw [primary, inner]
    rfl
  rw [text]
  show postfixes reader (primary reader (.sign '(' :: (units ++ .sign ')' :: rest))).1
    (primary reader (.sign '(' :: (units ++ .sign ')' :: rest))).2 = _
  rw [whole]
  exact postfixes_behind behind _

theorem ReadsProduct.binary (left : ReadsProduct units tree) (right : ReadsUnary units' tree')
    (isOp : isProductOp op = true) : ReadsProduct (units ++ .sign op :: units') (.binary op tree tree') := by
  intro reader rest agrees behind
  have text : units ++ .sign op :: units' ++ rest = units ++ (.sign op :: (units' ++ rest)) := by simp
  rw [text] at agrees ⊢
  rw [left reader _ agrees (behind_cons (.inr (.inr isOp)) _)]
  refine chain_step tree isOp (right reader rest (agrees.mono ?_) behind)
  simp
  omega

theorem ReadsSum.binary (left : ReadsSum units tree) (right : ReadsProduct units' tree')
    (isOp : isSumOp op = true) : ReadsSum (units ++ .sign op :: units') (.binary op tree tree') := by
  intro reader rest agrees behind stop
  have text : units ++ .sign op :: units' ++ rest = units ++ (.sign op :: (units' ++ rest)) := by simp
  have other : isProductOp op = false := by
    unfold isSumOp at isOp
    obtain rfl | rfl : op = '+' ∨ op = '-' := by simpa using isOp
    · decide
    · decide
  -- The left operand ends at the operator, which goes on with no product.
  rw [text] at agrees ⊢
  rw [left reader _ agrees (behind_cons (.inr (.inl isOp)) _) fun c first => by
    obtain rfl : op = c := by simpa using first
    exact other]
  refine chain_step tree isOp ?_
  rw [right reader rest (agrees.mono ?_) behind, chain_stop tree' stop]
  simp
  omega

end Arith

namespace Formula

open Arith (ReadsSum ReadsProduct ReadsUnary readsUnary_number readsUnary_name)

variable (e : Formula)

/-- What a formula of the given level is read as. -/
def ReadsAt (level : Nat) (units : List Arith.Lexeme) (tree : Arith) : Prop :=
  (level = 0 → ReadsSum units tree) ∧ (level = 1 → ReadsProduct units tree) ∧ (2 ≤ level → ReadsUnary units tree)

theorem ReadsAt.sum {level : Nat} {units : List Arith.Lexeme} {tree : Arith} (h : ReadsAt level units tree) :
    ReadsSum units tree := by
  obtain ⟨sum, product, unary⟩ := h
  by_cases alone : 2 ≤ level
  · exact (unary alone).product.sum
  · obtain rfl | rfl : level = 0 ∨ level = 1 := by omega
    · exact sum rfl
    · exact (product rfl).sum

theorem ReadsAt.enclose {level : Nat} {units : List Arith.Lexeme} {tree : Arith} (h : ReadsAt level units tree)
    (least : Nat) (needed : Bool) (enough : needed = false → least ≤ level) (small : least ≤ 2) :
    ReadsAt least (enclose needed units) (encloseTree needed tree) := by
  have unary : needed = true ∨ 2 ≤ level → ReadsUnary (Formula.enclose needed units) (encloseTree needed tree) := by
    intro alone
    cases needed with
    | true => exact h.sum.enclose
    | false => exact h.2.2 (alone.resolve_left (by simp))
  have product : needed = true ∨ 1 ≤ level → ReadsProduct (Formula.enclose needed units) (encloseTree needed tree) := by
    intro alone
    by_cases tight : needed = true ∨ 2 ≤ level
    · exact (unary tight).product
    · obtain ⟨rfl, loose⟩ : needed = false ∧ level < 2 := by simpa using tight
      exact h.2.1 (by have := alone.resolve_left (by simp); omega)
  refine ⟨fun _ => ?_, fun one => product ?_, fun two => unary ?_⟩
  · cases needed with
    | true => exact (unary (.inl rfl)).product.sum
    | false => exact h.sum
  · cases needed with
    | true => exact .inl rfl
    | false => exact .inr (by have := enough rfl; omega)
  · cases needed with
    | true => exact .inl rfl
    | false => exact .inr (by have := enough rfl; omega)

theorem readsAt : ReadsAt e.level e.units e.tree := by
  induction e with
  | numeral first rest => exact ⟨by simp [level], by simp [level], fun _ => readsUnary_number _⟩
  | constant name => exact ⟨by simp [level], by simp [level], fun _ => readsUnary_name name⟩
  | negate operand ih =>
    have inner := ih.enclose 2 (operand.level < 2) (fun loose => Nat.le_of_not_lt (of_decide_eq_false loose))
      (by decide)
    exact ⟨by simp [level], by simp [level], fun _ => (inner.2.2 (by decide)).negate⟩
  | group inner ih => exact ⟨by simp [level], by simp [level], fun _ => ih.sum.enclose⟩
  | binary op left right ihl ihr =>
    -- Operators group to the left, so only the right operand needs parentheses at the same level.
    have first := ihl.enclose op.level (left.level < op.level) (by simp)
      (by cases op <;> decide)
    have second := ihr.enclose (op.level + 1) (right.level ≤ op.level)
      (fun h => Nat.not_le.mp (of_decide_eq_false h)) (by cases op <;> decide)
    have sums (isOp : Arith.isSumOp op.sign = true) (h : op.level = 0) : ReadsAt 0 (binary op left right).units
        (binary op left right).tree :=
      ⟨fun _ => first.sum.binary (second.2.1 (by omega)) isOp, by simp, by simp⟩
    have products (isOp : Arith.isProductOp op.sign = true) (h : op.level = 1) : ReadsAt 1 (binary op left right).units
        (binary op left right).tree :=
      ⟨by simp, fun _ => (first.2.1 h).binary (second.2.2 (by omega)) isOp, by simp⟩
    cases op with
    | add | sub => exact sums rfl rfl
    | mul | div | mod => exact products rfl rfl

theorem sum_units : Arith.sum e.units = (e.tree, []) := by
  have read : Arith.sum (e.units ++ []) = (e.tree, []) :=
    e.readsAt.sum.read (fun _ h => by cases h) (fun _ h => by cases h)
  rwa [append_nil] at read

theorem plain_enclose {units : List Arith.Lexeme} (h : ∀ u ∈ units, u.Plain) (needed : Bool) :
    ∀ u ∈ enclose needed units, u.Plain := by
  cases needed with
  | false => exact h
  | true =>
    refine forall_mem_cons.mpr ⟨.sign (by decide), forall_mem_append.mpr ⟨h, ?_⟩⟩
    exact forall_mem_singleton.mpr (.sign (by decide))

theorem plain_units (words : ∀ name ∈ e.constants, Arith.IsWord name) : ∀ u ∈ e.units, u.Plain := by
  induction e with
  | numeral first rest => exact forall_mem_singleton.mpr (.number first rest)
  | constant name => exact forall_mem_singleton.mpr (.name (words name mem_cons_self))
  | group inner ih => exact plain_enclose (ih words) true
  | negate operand ih => exact forall_mem_cons.mpr ⟨.sign (by decide), plain_enclose (ih words) _⟩
  | binary op left right ihl ihr =>
    obtain ⟨hl, hr⟩ := forall_mem_append.mp words
    refine forall_mem_append.mpr ⟨plain_enclose (ihl hl) _,
      forall_mem_cons.mpr ⟨.sign ?_, plain_enclose (ihr hr) _⟩⟩
    cases op <;> decide

theorem isChain_behind {units : List Arith.Lexeme} (isSign : Arith.isSign c = true)
    (h : units.IsChain fun u w => u.IsSign ∨ w.IsSign) : (.sign c :: units).IsChain fun u w => u.IsSign ∨ w.IsSign :=
  isChain_cons.mpr ⟨fun _ _ => .inl ⟨c, isSign, rfl⟩, h⟩

theorem isChain_around {units units' : List Arith.Lexeme} (isSign : Arith.isSign c = true)
    (h : units.IsChain fun u w => u.IsSign ∨ w.IsSign) (h' : units'.IsChain fun u w => u.IsSign ∨ w.IsSign) :
    (units ++ .sign c :: units').IsChain fun u w => u.IsSign ∨ w.IsSign := by
  refine isChain_append.mpr ⟨h, isChain_behind isSign h', fun u _ w first => ?_⟩
  obtain rfl : Arith.Lexeme.sign c = w := by simpa using first
  exact .inr ⟨c, isSign, rfl⟩

theorem isChain_enclose {units : List Arith.Lexeme} (h : units.IsChain fun u w => u.IsSign ∨ w.IsSign) (needed : Bool) :
    (enclose needed units).IsChain fun u w => u.IsSign ∨ w.IsSign := by
  cases needed with
  | false => exact h
  | true => exact isChain_behind (by decide) (isChain_around (by decide) h isChain_nil)

theorem isChain_units : e.units.IsChain fun u w => u.IsSign ∨ w.IsSign := by
  induction e with
  | numeral first rest | constant name => exact isChain_singleton _
  | group inner ih => exact isChain_enclose ih true
  | negate operand ih => exact isChain_behind (by decide) (isChain_enclose ih _)
  | binary op left right ihl ihr =>
    exact isChain_around (by cases op <;> decide) (isChain_enclose ihl _) (isChain_enclose ihr _)

end Formula

end Impulse
