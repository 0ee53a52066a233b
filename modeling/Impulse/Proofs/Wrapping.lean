import Impulse.Proofs.Occurrences
import Impulse.Text.Wrapped

/-!
# Wrapped text holds its words

Wrapping moves no word. Every line is within the width or consists of one word, and a line ends only where the word
behind it would not fit.
-/

namespace Impulse.Text

open List

theorem words_append (a b : String) : words (a ++ " " ++ b) = words a ++ words b := by
  have blank : isBlank ' ' = true := by decide
  have cut := splitWhere_append_sep blank a.toList b.toList
  simp [words, cut]

theorem words_of_mem (h : word ∈ words text) : words word = [word] := by
  obtain ⟨piece, mem, rfl⟩ := mem_map.mp h
  obtain ⟨cut, some⟩ := mem_filter.mp mem
  rw [words, String.toList_ofList, splitWhere_of_none (splitWhere_free cut), filter_singleton, some]
  rfl

theorem utf8ByteSize_joined (line word : String) :
    ((line ++ " " ++ word).utf8ByteSize : Int) = line.utf8ByteSize + 1 + word.utf8ByteSize := by
  have blank : " ".utf8ByteSize = 1 := by decide
  rw [String.utf8ByteSize_append, String.utf8ByteSize_append, blank]
  norm_cast

/-- The line has no room for the word that the next line begins with. -/
def Overfull (width : Int) (line next : String) : Prop :=
  ∃ word rest, words next = word :: rest ∧ width < (line ++ " " ++ word).utf8ByteSize

section Fill

variable (width : Int) (line : String) (rest : List String)

/-- The first line keeps the words it begins with. -/
theorem exists_fill : ∃ first lines, fill width line rest = first :: lines ∧ words line <+: words first := by
  fun_induction fill width line rest with
  | case1 line => exact ⟨line, [], rfl, prefix_refl _⟩
  | case2 line word rest _ _ => exact ⟨line, fill width word rest, rfl, prefix_refl _⟩
  | case3 line word rest _ ih =>
    obtain ⟨first, lines, filled, front⟩ := ih
    rw [words_append] at front
    exact ⟨first, lines, filled, (prefix_append _ _).trans front⟩

theorem intercalate_fill : " ".intercalate (fill width line rest) = " ".intercalate (line :: rest) := by
  fun_induction fill width line rest with
  | case1 line => rfl
  | case2 line word rest _ ih =>
    obtain ⟨first, lines, filled, -⟩ := exists_fill width word rest
    rw [String.intercalate_cons_cons, ← ih, filled, String.intercalate_cons_cons]
  | case3 line word rest _ ih =>
    rw [ih]
    cases rest with
    | nil => simp
    | cons next rest => simp [String.append_assoc]

variable {rest}

theorem flatMap_words_fill (single : ∀ word ∈ rest, words word = [word]) :
    (fill width line rest).flatMap words = words line ++ rest := by
  fun_induction fill width line rest with
  | case1 line => rw [flatMap_singleton, append_nil]
  | case2 line word rest _ ih =>
    obtain ⟨own, others⟩ := forall_mem_cons.mp single
    rw [flatMap_cons, ih others, own, singleton_append]
  | case3 line word rest _ ih =>
    obtain ⟨own, others⟩ := forall_mem_cons.mp single
    rw [ih others, words_append, own, append_assoc, singleton_append]

theorem fill_fits (single : ∀ word ∈ rest, words word = [word])
    (fits : (line.utf8ByteSize : Int) ≤ width ∨ words line = [line]) :
    ∀ l ∈ fill width line rest, (l.utf8ByteSize : Int) ≤ width ∨ words l = [l] := by
  fun_induction fill width line rest with
  | case1 line => exact forall_mem_singleton.mpr fits
  | case2 line word rest _ ih =>
    obtain ⟨own, others⟩ := forall_mem_cons.mp single
    exact forall_mem_cons.mpr ⟨fits, ih others (.inr own)⟩
  | case3 line word rest within ih =>
    refine ih (forall_mem_cons.mp single).2 (.inl ?_)
    rw [utf8ByteSize_joined]
    exact Int.not_lt.mp within

theorem isChain_fill (single : ∀ word ∈ rest, words word = [word]) :
    (fill width line rest).IsChain (Overfull width) := by
  fun_induction fill width line rest with
  | case1 line => exact .singleton line
  | case2 line word rest beyond ih =>
    obtain ⟨own, others⟩ := forall_mem_cons.mp single
    obtain ⟨first, lines, filled, front⟩ := exists_fill width word rest
    have chain := ih others
    rw [own] at front
    obtain ⟨more, begins⟩ := front
    rw [filled] at chain ⊢
    refine .cons_cons ⟨word, more, begins.symm, ?_⟩ chain
    rw [utf8ByteSize_joined]
    exact beyond
  | case3 line word rest _ ih => exact ih (forall_mem_cons.mp single).2

end Fill

/-- Wrapping a text to any width loses, repeats and moves no word: joined by spaces the lines are the words joined by
spaces, and the words of the lines are the words of the text. A line that is too long is a single word, and no line has
room for the first word of the next one. -/
theorem wrap_greedy (width : Int) (text : String) :
    " ".intercalate (wrap width text) = " ".intercalate (words text) ∧
      (wrap width text).flatMap words = words text ∧
      (∀ line ∈ wrap width text, (line.utf8ByteSize : Int) ≤ width ∨ words line = [line]) ∧
      (wrap width text).IsChain (Overfull width) := by
  unfold wrap
  cases found : words text with
  | nil => exact ⟨rfl, rfl, forall_mem_nil _, .nil⟩
  | cons word rest =>
    have single : ∀ w ∈ word :: rest, words w = [w] := fun w mem => words_of_mem (found ▸ mem)
    obtain ⟨own, others⟩ := forall_mem_cons.mp single
    refine ⟨intercalate_fill width word rest, ?_, fill_fits width word others (.inr own), isChain_fill width word others⟩
    exact (flatMap_words_fill width word others).trans (by rw [own, singleton_append])

end Impulse.Text
