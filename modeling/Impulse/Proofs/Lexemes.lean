import Impulse.Token.Lexer

/-!
# What a token is read from

A token is read in one of nine ways, and its first character decides in which. `Lexeme.Shape` lists them, each with what
was tested.
-/

namespace Impulse.Lexeme

open List Text

theorem take_length_takeWhile (p : Char → Bool) (cs : List Char) : cs.take (cs.takeWhile p).length = cs.takeWhile p :=
  (prefix_iff_eq_take.mp (List.takeWhile_prefix p)).symm

theorem fraction_cases (cs : List Char) :
    fraction cs = [] ∨ ∃ d ds, isDigit d = true ∧ fraction cs = '.' :: d :: ds.takeWhile isDigit ∧
      cs = '.' :: d :: ds := by
  unfold fraction
  split
  · next d ds =>
    split
    · next digit => exact .inr ⟨d, ds, digit, rfl, rfl⟩
    · exact .inl rfl
  · exact .inl rfl

/-- What a number consists of behind its first digit. -/
def numeralTail (cs : List Char) : List Char :=
  cs.takeWhile isDigit ++ fraction (cs.drop (cs.takeWhile isDigit).length)

theorem numeralTail_front (cs : List Char) : numeralTail cs <+: cs := by
  have part : fraction (cs.drop (cs.takeWhile isDigit).length) <+: cs.drop (cs.takeWhile isDigit).length := by
    obtain none | ⟨d, ds, -, part, rest⟩ := fraction_cases (cs.drop (cs.takeWhile isDigit).length)
    · rw [none]
      exact nil_prefix
    · rw [part, rest]
      exact (prefix_cons_inj _).mpr ((prefix_cons_inj _).mpr (List.takeWhile_prefix _))
  have parts := take_append_drop (cs.takeWhile isDigit).length cs
  rw [take_length_takeWhile] at parts
  have whole := (prefix_append_right_inj (cs.takeWhile isDigit)).mpr part
  rwa [parts] at whole

theorem isNamePart_of_mem_numeral (digit : isDigit c = true) : ∀ d ∈ c :: numeralTail cs, isNamePart d = true := by
  have named (d : Char) (digit : isDigit d = true) : isNamePart d = true := by simp [isNamePart, digit]
  have digits (ds : List Char) (d : Char) (mem : d ∈ ds.takeWhile isDigit) : isNamePart d = true :=
    named d (all_eq_true.mp all_takeWhile d mem)
  refine forall_mem_cons.mpr ⟨named c digit, forall_mem_append.mpr ⟨digits cs, ?_⟩⟩
  obtain none | ⟨d, ds, digit', part, -⟩ := fraction_cases (cs.drop (cs.takeWhile isDigit).length)
  · rw [none]
    exact forall_mem_nil _
  · rw [part]
    exact forall_mem_cons.mpr ⟨rfl, forall_mem_cons.mpr ⟨named d digit', digits ds⟩⟩

def numeral (c : Char) (cs : List Char) : Lexeme :=
  ⟨.number, String.ofList (c :: numeralTail cs), (numeralTail cs).length + 1, Nat.succ_pos _⟩

/-- No letter stands directly behind a number. -/
def Ends (cs : List Char) : Prop :=
  ∀ d ∈ cs.head?, (isLetter d || d == '_') = false

theorem decimal_eq_ok : decimal c cs = .ok l ↔ Ends (cs.drop (numeralTail cs).length) ∧ numeral c cs = l := by
  have behind : (cs.drop (cs.takeWhile isDigit).length).drop
      (fraction (cs.drop (cs.takeWhile isDigit).length)).length = cs.drop (numeralTail cs).length := by
    rw [drop_drop, numeralTail, length_append]
  unfold decimal
  dsimp only
  rw [behind]
  have own : (⟨.number, String.ofList (c :: cs.takeWhile isDigit ++ fraction (cs.drop (cs.takeWhile isDigit).length)),
      (cs.takeWhile isDigit).length + (fraction (cs.drop (cs.takeWhile isDigit).length)).length + 1,
      Nat.succ_pos _⟩ : Lexeme) = numeral c cs := by
    simp [numeral, numeralTail]
  rw [own]
  cases cs.drop (numeralTail cs).length with
  | nil => simp [Ends]
  | cons d ds =>
    have ends : Ends (d :: ds) ↔ (isLetter d || d == '_') = false := by
      simp only [Ends, List.head?_cons, Option.mem_def, Option.some.injEq, forall_eq']
    rw [ends]
    dsimp only
    generalize (isLetter d || d == '_') = letter
    cases letter <;> simp

/-- The token that begins with `c` and goes on in `cs`. -/
inductive Shape (comments : Bool) (c : Char) (cs : List Char) : Lexeme → Prop
  | comment {rest : List Char} (on : comments = true) (slash : c = '/') (again : cs = '/' :: rest) :
      Shape comments c cs (lineComment rest)
  | word (first : (isLetter c || c == '_') = true) : Shape comments c cs (word c cs)
  | decimal (noLetter : (isLetter c || c == '_') = false) (digit : isDigit c = true)
      (ends : Ends (cs.drop (numeralTail cs).length)) : Shape comments c cs (numeral c cs)
  | group {n : Nat} (bracket : c = '[') (closed : groupSize 1 none cs = some n) :
      Shape comments c cs ⟨.number, String.ofList (trimChars (cs.take (n - 1))), n + 1, Nat.succ_pos n⟩
  | string {n : Nat} (quote : c = '"') (closed : quotedSize '"' cs = (true, n)) :
      Shape comments c cs ⟨.string, String.ofList (cs.take (n - 1)), n + 1, Nat.succ_pos n⟩
  | char {n : Nat} (quote : c = '\'') (closed : quotedSize '\'' cs = (true, n)) (full : ¬n ≤ 1) :
      Shape comments c cs ⟨.char, String.ofList (cs.take (n - 1)), n + 1, Nat.succ_pos n⟩
  | pair {rest : List Char} (colon : c = ':') (again : cs = ':' :: rest) :
      Shape comments c cs ⟨.doubleColon, "", 2, Nat.two_pos⟩
  | colon (colon : c = ':') (single : cs.head? ≠ some ':') : Shape comments c cs ⟨.colon, "", 1, Nat.one_pos⟩
  | symbol {kind : Token.Kind} (known : symbol? c = some kind) : Shape comments c cs ⟨kind, "", 1, Nat.one_pos⟩

theorem shape_of_read (h : read comments c cs = .ok l) : Shape comments c cs l := by
  unfold read at h
  split at h
  · next slashes =>
    simp only [Bool.and_eq_true, beq_iff_eq] at slashes
    obtain ⟨⟨on, slash⟩, second⟩ := slashes
    obtain ⟨rest, rfl⟩ := List.head?_eq_some_iff.mp second
    cases h
    exact .comment on slash rfl
  split at h
  · next first =>
    cases h
    exact .word first
  next noLetter =>
  split at h
  · next digit =>
    obtain ⟨ends, rfl⟩ := decimal_eq_ok.mp h
    exact .decimal (Bool.eq_false_iff.mpr noLetter) digit ends
  split at h
  · next bracket =>
    unfold group at h
    split at h
    · cases h
    · next n closed =>
      cases h
      exact .group (beq_iff_eq.mp bracket) closed
  split at h
  · next quote =>
    unfold stringLiteral at h
    rcases closed : quotedSize '"' cs with ⟨_ | _, n⟩ <;> rw [closed] at h <;> cases h
    exact .string (beq_iff_eq.mp quote) closed
  split at h
  · next quote =>
    unfold charLiteral at h
    rcases closed : quotedSize '\'' cs with ⟨_ | _, n⟩ <;> rw [closed] at h
    · cases h
    · by_cases empty : n ≤ 1
      · simp [empty] at h
      · simp only [empty, Bool.not_true, Bool.false_eq_true, if_false] at h
        cases h
        exact .char (beq_iff_eq.mp quote) closed empty
  split at h
  · next colon =>
    split at h
    · next again =>
      obtain ⟨rest, rfl⟩ := List.head?_eq_some_iff.mp (beq_iff_eq.mp again)
      cases h
      exact .pair (beq_iff_eq.mp colon) rfl
    · next single =>
      cases h
      exact .colon (beq_iff_eq.mp colon) (by simpa using single)
  · split at h
    · next known =>
      cases h
      exact .symbol known
    · cases h

theorem Shape.read (h : Shape comments c cs l) : read comments c cs = .ok l := by
  have noComment (other : c ≠ '/') : ¬(comments && c == '/' && cs.head? == some '/') = true := by simp [other]
  cases h with
  | comment on slash again =>
    subst on slash again
    rfl
  | word first =>
    rw [Lexeme.read, if_neg (noComment (by rintro rfl; cases first)), if_pos first]
  | decimal noLetter digit ends =>
    rw [Lexeme.read, if_neg (noComment (by rintro rfl; cases digit)), if_neg (by simp [noLetter]), if_pos digit]
    exact decimal_eq_ok.mpr ⟨ends, rfl⟩
  | group bracket closed =>
    subst bracket
    have here : Lexeme.read comments '[' cs = Lexeme.group cs := by cases comments <;> rfl
    rw [here, Lexeme.group, closed]
  | string quote closed =>
    subst quote
    have here : Lexeme.read comments '"' cs = stringLiteral cs := by cases comments <;> rfl
    rw [here, stringLiteral, closed]
    rfl
  | char quote closed full =>
    subst quote
    have here : Lexeme.read comments '\'' cs = charLiteral cs := by cases comments <;> rfl
    rw [here, charLiteral, closed]
    simp [full]
  | pair colon again =>
    subst colon again
    cases comments <;> rfl
  | colon colon single =>
    subst colon
    have here : Lexeme.read comments ':' cs = if cs.head? == some ':' then .ok ⟨.doubleColon, "", 2, Nat.two_pos⟩
        else .ok ⟨.colon, "", 1, Nat.one_pos⟩ := by cases comments <;> rfl
    rw [here, if_neg (by simpa using single)]
  | symbol known =>
    unfold symbol? at known
    split at known <;> cases known <;> cases comments <;> rfl

theorem keyword?_kind {kind : Token.Kind} (h : Token.keyword? name = some kind) :
    kind ≠ .ident ∧ kind ≠ .number ∧ kind ≠ .endOfFile := by
  have others : ∀ k ∈ Token.keywords, k.2 ≠ .ident ∧ k.2 ≠ .number ∧ k.2 ≠ .endOfFile := by decide
  obtain ⟨k, found, rfl⟩ := Option.map_eq_some_iff.mp h
  exact others k (mem_of_find?_eq_some found)

theorem symbol?_kind {kind : Token.Kind} (h : symbol? c = some kind) :
    kind ≠ .ident ∧ kind ≠ .number ∧ kind ≠ .endOfFile := by
  unfold symbol? at h
  split at h <;> cases h <;> decide

theorem kind_word (c : Char) (cs : List Char) : (word c cs).kind ≠ .number ∧ (word c cs).kind ≠ .endOfFile := by
  unfold word
  dsimp only
  split
  · next known => exact (keyword?_kind known).2
  · exact ⟨Token.Kind.noConfusion, Token.Kind.noConfusion⟩

theorem size_word (c : Char) (cs : List Char) : (word c cs).size = (cs.takeWhile isNamePart).length + 1 := by
  unfold word
  dsimp only
  split <;> rfl

theorem kind_ne_endOfFile (h : read comments c cs = .ok l) : l.kind ≠ .endOfFile := by
  cases shape_of_read h with
  | word => exact (kind_word c cs).2
  | symbol known => exact (symbol?_kind known).2.2
  | _ => exact Token.Kind.noConfusion

theorem word_of_ident (h : read comments c cs = .ok l) (kind : l.kind = .ident) :
    (isLetter c || c == '_') = true ∧ l = word c cs := by
  cases shape_of_read h with
  | word first => exact ⟨first, rfl⟩
  | symbol known => exact absurd kind (symbol?_kind known).1
  | _ => cases kind

end Impulse.Lexeme
