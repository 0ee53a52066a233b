import Impulse.Expr
import Impulse.Proofs.Lexemes

/-!
# The weight of tokens

An expression is read by reading smaller ones, where size is measured by `Token.totalWeight`. The parts that
are cut out of a list of tokens weigh no more than the list, and the tokens of an element weigh less than the
list literal whose text they come from: a token never weighs more than the characters it was read from.
-/

namespace Impulse

open List

variable {l : Lexeme} (comments : Bool)

namespace Token

@[simp]
theorem totalWeight_nil : totalWeight [] = 0 :=
  rfl

@[simp]
theorem totalWeight_cons (t : Token) (ts : List Token) : totalWeight (t :: ts) = t.weight + totalWeight ts :=
  rfl

@[simp]
theorem totalWeight_append (ts us : List Token) : totalWeight (ts ++ us) = totalWeight ts + totalWeight us := by
  induction ts with
  | nil => simp
  | cons t ts ih => rw [cons_append, totalWeight_cons, totalWeight_cons, ih, Nat.add_assoc]

theorem weight_pos (t : Token) : 0 < t.weight := by
  unfold weight
  split <;> omega

theorem totalWeight_le_of_suffix {ts us : List Token} (h : ts <:+ us) : totalWeight ts ≤ totalWeight us := by
  obtain ⟨front, rfl⟩ := h
  simp

theorem totalWeight_le_of_sublist {ts us : List Token} (h : List.Sublist ts us) : totalWeight ts ≤ totalWeight us := by
  induction h with
  | slnil => exact Nat.le_refl _
  | cons t _ ih =>
    rw [totalWeight_cons]
    omega
  | cons_cons t _ ih =>
    rw [totalWeight_cons, totalWeight_cons]
    omega

theorem totalWeight_splitFrom_le (sep : Kind) (depth : Int) (barred : Bool) (toks part : List Token)
    (h : part ∈ splitFrom sep depth barred toks) : totalWeight part ≤ totalWeight toks := by
  -- Putting a token in front of the first part keeps the bound.
  have step : ∀ (t : Token) (ts : List Token) (parts : List (List Token)),
      (∀ p ∈ parts, totalWeight p ≤ totalWeight ts) →
      ∀ p ∈ consHead t parts, totalWeight p ≤ totalWeight (t :: ts) := by
    intro t ts parts hparts p hp
    rw [totalWeight_cons]
    cases parts with
    | nil =>
      rw [mem_singleton.mp hp]
      simp
    | cons first rest =>
      rcases mem_cons.mp hp with rfl | hp
      · have := hparts first (by simp)
        rw [totalWeight_cons]
        omega
      · have := hparts p (by simp [hp])
        omega
  induction toks generalizing depth barred part with
  | nil =>
    obtain rfl := mem_singleton.mp h
    exact Nat.le_refl _
  | cons t ts ih =>
    rw [splitFrom] at h
    split at h
    · exact step t ts _ (fun p hp => ih _ _ p hp) part h
    · split at h
      · exact step t ts _ (fun p hp => ih _ _ p hp) part h
      · split at h
        · exact step t ts _ (fun p hp => ih _ _ p hp) part h
        · split at h
          · rcases mem_cons.mp h with rfl | h
            · simp
            · have := ih _ _ part h
              rw [totalWeight_cons]
              omega
          · exact step t ts _ (fun p hp => ih _ _ p hp) part h

theorem totalWeight_splitTop_le {sep : Kind}
    (h : part ∈ splitTop sep toks) : totalWeight part ≤ totalWeight toks := by
  unfold splitTop at h
  split at h
  · simp at h
  · exact totalWeight_splitFrom_le sep 0 false toks part h

end Token

namespace Text

theorem trimChars_append (cs : List Char) :
    trimChars cs ++ ((cs.dropWhile isBlank).reverse.takeWhile isBlank).reverse = cs.dropWhile isBlank := by
  rw [trimChars, ← reverse_append, takeWhile_append_dropWhile, reverse_reverse]

theorem exists_trimChars (cs : List Char) : ∃ front back, cs = front ++ trimChars cs ++ back ∧
    (∀ c ∈ front, isBlank c = true) ∧ ∀ c ∈ back, isBlank c = true := by
  refine ⟨cs.takeWhile isBlank, ((cs.dropWhile isBlank).reverse.takeWhile isBlank).reverse, ?_,
    all_eq_true.mp all_takeWhile, ?_⟩
  · rw [append_assoc, trimChars_append, takeWhile_append_dropWhile]
  · intro c mem
    exact all_eq_true.mp all_takeWhile c (mem_reverse.mp mem)

theorem trimChars_sublist (cs : List Char) : (trimChars cs).Sublist cs := by
  obtain ⟨front, back, parts, -⟩ := exists_trimChars cs
  have inner := (sublist_append_right front (trimChars cs)).trans (sublist_append_left _ back)
  rwa [← parts] at inner

/-- The text neither begins nor ends with a blank. -/
structure Tight (cs : List Char) : Prop where
  head : ∀ c ∈ cs.head?, isBlank c = false
  last : ∀ c ∈ cs.getLast?, isBlank c = false

theorem dropWhile_blanks {cs front : List Char} (blank : ∀ c ∈ front, isBlank c = true)
    (dark : ∀ c ∈ cs.head?, isBlank c = false) : (front ++ cs).dropWhile isBlank = cs := by
  rw [dropWhile_append_of_pos blank]
  cases cs with
  | nil => rfl
  | cons c cs => rw [dropWhile_cons_of_neg (by simp [dark c rfl])]

theorem Tight.trimChars_pad {cs front back : List Char} (tight : Tight cs) (blank : ∀ c ∈ front, isBlank c = true)
    (blank' : ∀ c ∈ back, isBlank c = true) : trimChars (front ++ cs ++ back) = cs := by
  unfold trimChars
  cases cs with
  | nil =>
    have all : ∀ c ∈ front ++ back, isBlank c = true := forall_mem_append.mpr ⟨blank, blank'⟩
    have none : ((front ++ back) ++ []).dropWhile isBlank = [] := dropWhile_blanks all fun c mem => by cases mem
    rw [append_nil] at none ⊢
    rw [none]
    rfl
  | cons c cs =>
    have first : ∀ d ∈ (c :: cs ++ back).head?, isBlank d = false := tight.head
    have last : ∀ d ∈ (c :: cs).reverse.head?, isBlank d = false := by
      rw [List.head?_reverse]
      exact tight.last
    rw [append_assoc, dropWhile_blanks blank first, reverse_append,
      dropWhile_blanks (fun d mem => blank' d (mem_reverse.mp mem)) last, reverse_reverse]

theorem Tight.trimChars {cs : List Char} (tight : Tight cs) : trimChars cs = cs := by
  have none := forall_mem_nil fun c => isBlank c = true
  simpa using tight.trimChars_pad none none

theorem tight_trimChars (cs : List Char) : Tight (trimChars cs) := by
  have dark (ds : List Char) (c : Char) (mem : c ∈ (ds.dropWhile isBlank).head?) : isBlank c = false := by
    have := List.head?_dropWhile_not isBlank ds
    rw [Option.mem_def.mp mem] at this
    simpa using this
  refine ⟨fun c mem => dark cs c ?_, fun c mem => ?_⟩
  · rw [← trimChars_append, List.head?_append, Option.mem_def.mp mem]
    rfl
  · unfold Text.trimChars at mem
    rw [List.getLast?_reverse] at mem
    exact dark _ c mem

theorem length_trim_le (s : String) : (trim s).length ≤ s.length := by
  have := (trimChars_sublist s.toList).length_le
  simpa [trim, String.length_toList] using this

theorem contains_of_contains_trim {s : String} (h : contains (trim s) c = true) : contains s c = true := by
  simp only [contains, trim, String.toList_ofList, contains_iff_mem] at h ⊢
  exact (trimChars_sublist s.toList).subset h

end Text

namespace Lexeme

open Text

def weight (l : Lexeme) : Nat :=
  if l.kind = .number ∧ contains l.value ',' then l.value.length + 1 else 1

theorem weight_of_kind (h : l.kind ≠ .number) : l.weight = 1 := by
  unfold weight
  rw [if_neg (by simp [h])]

theorem weight_numeral {cs : List Char} (digit : isDigit c = true) : (numeral c cs).weight = 1 := by
  have noComma : ',' ∉ c :: numeralTail cs := fun mem => by cases isNamePart_of_mem_numeral digit _ mem
  have plain : contains (String.ofList (c :: numeralTail cs)) ',' = false := by
    rw [Text.contains, String.toList_ofList, Bool.eq_false_iff, ne_eq, contains_iff_mem]
    exact noComma
  exact if_neg fun both => by cases plain.symm.trans both.2

theorem weight_read_le {comments : Bool}
    (h : read comments c cs = .ok l) : l.weight ≤ min l.size (cs.length + 1) := by
  have light (one : l.weight = 1) : l.weight ≤ min l.size (cs.length + 1) := by
    have := l.size_pos
    omega
  cases shape_of_read h with
  | word => exact light (weight_of_kind (kind_word c cs).1)
  | decimal _ digit => exact light (weight_numeral digit)
  | @group n =>
    -- The text of a bracket group is cut out of what follows the bracket.
    have trimmed := (trimChars_sublist (cs.take (n - 1))).length_le
    rw [length_take] at trimmed
    unfold weight
    dsimp only
    split
    · rw [String.length_ofList]
      omega
    · omega
  | symbol known => exact light (weight_of_kind (symbol?_kind known).2.1)
  | _ => exact light (weight_of_kind Token.Kind.noConfusion)

end Lexeme

namespace Tokens

theorem totalWeight_scan_le (file : Nat) (p : Place) (cs : List Char) :
    Token.totalWeight ((scan comments file p cs).tokens.filter (·.kind != .endOfFile))
      ≤ cs.length := by
  fun_induction scan comments file p cs with
  | case1 | case2 => simp
  | case3 p cs blanks place c rest hcs lexeme hread token ih =>
    have hdrop := (dropWhile_sublist isSeparator (l := cs)).length_le
    have hweight := Lexeme.weight_read_le hread
    rw [hcs, length_cons] at hdrop
    rw [length_drop, length_cons] at ih
    simp only [push, filter_cons]
    split
    · rw [Token.totalWeight_cons]
      change lexeme.weight + _ ≤ _
      omega
    · omega

end Tokens

namespace Infer

theorem length_splitElements (depth : Int) (quote : Option Char) (cs : List Char) :
    0 < (splitElements depth quote cs).length ∧
      (splitElements depth quote cs).flatten.length + (splitElements depth quote cs).length = cs.length + 1 := by
  -- Putting a character in front adds it to the first part.
  have step : ∀ (c : Char) (parts : List (List Char)) (n : Nat),
      0 < parts.length ∧ parts.flatten.length + parts.length = n + 1 →
      0 < (consChar c parts).length ∧
        (consChar c parts).flatten.length + (consChar c parts).length = n + 1 + 1 := by
    rintro c parts n ⟨hpos, hsum⟩
    cases parts with
    | nil => simp at hpos
    | cons part parts =>
      simp [consChar] at hsum ⊢
      omega
  fun_induction splitElements depth quote cs with
  | case1 | case2 => simp
  | case3 _ _ _ _ ih => exact step _ _ _ (step _ _ _ ih)
  | case4 _ _ _ _ _ ih | case5 _ _ _ _ ih | case6 _ _ _ _ _ ih | case7 _ _ _ _ _ _ ih | case9 _ _ _ _ _ _ _ ih =>
    exact step _ _ _ ih
  | case8 depth c cs _ _ _ _ ih =>
    simp only [length_cons, flatten_cons, nil_append]
    omega

theorem comma_mem_of_splitElements (depth : Int) (quote : Option Char) (cs : List Char)
    (h : 1 < (splitElements depth quote cs).length) : ',' ∈ cs := by
  have step : ∀ (c : Char) (parts : List (List Char)), 1 < (consChar c parts).length →
      1 < parts.length := by
    intro c parts hparts
    cases parts with
    | nil => simp [consChar] at hparts
    | cons part parts => simpa [consChar] using hparts
  fun_induction splitElements depth quote cs with
  | case1 | case2 => simp at h
  | case3 _ _ _ _ ih => simp [ih (step _ _ (step _ _ h))]
  | case4 _ _ _ _ _ ih | case5 _ _ _ _ ih | case6 _ _ _ _ _ ih | case7 _ _ _ _ _ _ ih | case9 _ _ _ _ _ _ _ ih =>
    simp [ih (step _ _ h)]
  | case8 depth c cs _ _ _ hcomma ih => simp [hcomma.1]

theorem length_element_lt {raw text : String} (hmany : 1 < (splitElements 0 none raw.toList).length)
    (h : text ∈ elementTexts raw) : text.length < raw.length := by
  have hmem : text ∈ (splitElements 0 none raw.toList).map fun cs =>
      Text.trim (String.ofList cs) := by
    unfold elementTexts at h
    dsimp only at h
    split at h
    · exact (dropLast_sublist _).subset h
    · exact h
  obtain ⟨part, hpart, rfl⟩ := mem_map.mp hmem
  have hsum := (length_splitElements 0 none raw.toList).2
  have hle : part.length ≤ (splitElements 0 none raw.toList).flatten.length :=
    (sublist_flatten_of_mem hpart).length_le
  have htrim := Text.length_trim_le (String.ofList part)
  rw [String.length_ofList] at htrim
  rw [String.length_toList] at hsum
  omega

theorem totalWeight_element_lt {t : Token} (file : Nat) (hkind : t.kind = .number)
    (hmany : 1 < (splitElements 0 none (Text.trim t.value).toList).length) (h : text ∈ elementTexts (Text.trim t.value))
    (place : Token → Token) (hplace : ∀ u, (place u).kind = u.kind ∧ (place u).value = u.value) :
    Token.totalWeight (((tokenize comments file text).tokens.filter fun u =>
      !u.isTrivia && u.kind != .endOfFile).map place) < t.weight := by
  have hcomma : Text.contains t.value ',' = true := by
    refine Text.contains_of_contains_trim ?_
    rw [Text.contains, contains_iff_mem]
    exact comma_mem_of_splitElements 0 none _ hmany
  have hmap : ∀ us : List Token, Token.totalWeight (us.map place) = Token.totalWeight us := by
    intro us
    induction us with
    | nil => rfl
    | cons u us ih =>
      have hu : (place u).weight = u.weight := by simp only [Token.weight, hplace u]
      rw [map_cons, Token.totalWeight_cons, Token.totalWeight_cons, ih, hu]
  have hscan := Tokens.totalWeight_scan_le comments file Place.start text.toList
  have hsub : ((tokenize comments file text).tokens.filter fun u =>
      !u.isTrivia && u.kind != .endOfFile).Sublist
      ((tokenize comments file text).tokens.filter (·.kind != .endOfFile)) := by
    rw [← filter_filter]
    exact filter_sublist
  calc Token.totalWeight (((tokenize comments file text).tokens.filter fun u =>
        !u.isTrivia && u.kind != .endOfFile).map place)
      ≤ Token.totalWeight ((tokenize comments file text).tokens.filter (·.kind != .endOfFile)) := by
        rw [hmap]
        exact Token.totalWeight_le_of_sublist hsub
    _ ≤ text.length := by rwa [String.length_toList] at hscan
    _ < (Text.trim t.value).length := length_element_lt hmany h
    _ ≤ t.value.length := Text.length_trim_le t.value
    _ < t.weight := by
      rw [Token.weight, if_pos ⟨hkind, hcomma⟩]
      omega

end Infer

end Impulse
