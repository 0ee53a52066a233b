import Impulse.Proofs.Lexemes

/-!
# Names and paths

A variable that holds a struct, or points to one, brings variables whose names are paths: the name of the variable,
a point or an arrow, and a field. So a name that holds neither belongs to what it was written for, and a path leads
into one such name only. In source texts names are read without arrows.
-/

namespace Impulse

open List

/-- A name that is not a path: it holds neither a point nor the first character of an arrow. -/
structure PlainName (b : String) : Prop where
  noPoint : '.' ∉ b.toList
  noArrow : '-' ∉ b.toList

/-- A path into a variable of the name `b`: a point or an arrow follows the name. -/
def PathInto (b path : String) : Prop :=
  ∃ rest, path = b ++ "." ++ rest ∨ path = b ++ "->" ++ rest

namespace PathInto

variable (h : PathInto b path)
include h

theorem toList_eq : ∃ c rest, (c = '.' ∨ c = '-') ∧ path.toList = b.toList ++ c :: rest := by
  obtain ⟨rest, rfl | rfl⟩ := h
  · exact ⟨'.', rest.toList, .inl rfl, by simp⟩
  · exact ⟨'-', '>' :: rest.toList, .inr rfl, by simp⟩

theorem append (more : String) : PathInto b (path ++ more) := by
  obtain ⟨rest, rfl | rfl⟩ := h
  · exact ⟨rest ++ more, .inl (by simp only [String.append_assoc])⟩
  · exact ⟨rest ++ more, .inr (by simp only [String.append_assoc])⟩

theorem not_plain : ¬PlainName path := by
  intro plain
  obtain ⟨c, rest, sign, eq⟩ := h.toList_eq
  have mem : c ∈ path.toList := by simp [eq]
  rcases sign with rfl | rfl
  · exact plain.noPoint mem
  · exact plain.noArrow mem

theorem ne : path ≠ b := by
  intro heq
  obtain ⟨c, rest, -, eq⟩ := h.toList_eq
  rw [heq] at eq
  simpa using congrArg List.length eq

end PathInto

theorem PlainName.eq_or_extends (plain : PlainName b) (into : PathInto b path)
    (h : path = v ∨ PathInto v path) : v = b ∨ ∃ more, more ≠ "" ∧ v = b ++ more := by
  obtain ⟨c, rest, -, eq⟩ := into.toList_eq
  have before : b.toList <+: path.toList := ⟨c :: rest, eq.symm⟩
  have other : v.toList <+: path.toList := by
    rcases h with rfl | h
    · exact prefix_refl _
    · obtain ⟨c', rest', -, eq'⟩ := h.toList_eq
      exact ⟨c' :: rest', eq'.symm⟩
  rcases prefix_or_prefix_of_prefix before other with shorter | longer
  · -- The name of the other variable begins with the plain name.
    obtain ⟨more, hmore⟩ := shorter
    have hv : v = b ++ String.ofList more := String.toList_inj.mp (by simp [hmore])
    by_cases same : String.ofList more = ""
    · exact .inl (by rw [hv, same, String.append_empty])
    · exact .inr ⟨_, same, hv⟩
  · obtain ⟨more, hmore⟩ := longer
    cases more with
    | nil => exact .inl (String.toList_inj.mp (by simpa using hmore))
    | cons c' more =>
      exfalso
      rw [← hmore] at eq
      rcases h with rfl | h
      · simpa using congrArg List.length eq
      · -- The plain name goes on behind the other one, so it holds a sign.
        obtain ⟨c'', rest', sign, eq'⟩ := h.toList_eq
        rw [eq', append_assoc] at eq
        have first : c'' = c' := (List.cons.inj (append_cancel_left eq)).1
        have mem : c'' ∈ b.toList := by simp [← hmore, first]
        rcases sign with rfl | rfl
        · exact plain.noPoint mem
        · exact plain.noArrow mem

theorem PlainName.base_unique (plain : PlainName b) (plain' : PlainName b')
    (into : PathInto b path) (into' : PathInto b' path) : b' = b := by
  rcases plain.eq_or_extends into (.inr into') with same | ⟨more, some, longer⟩
  · exact same
  · rcases plain'.eq_or_extends into' (.inr into) with same | ⟨more', -, longer'⟩
    · exact same.symm
    · -- Each of the two names would be longer than the other one.
      exfalso
      have lengths := congrArg (fun n => n.toList.length) (longer.trans (congrArg (· ++ more) longer'))
      simp only [String.toList_append, length_append] at lengths
      have empty : more.toList = [] := length_eq_zero_iff.mp (by omega)
      exact some (String.toList_eq_nil_iff.mp empty)

/-- If the token is a name, it holds no arrow. -/
def Token.Lexed (t : Token) : Prop :=
  t.kind = .ident → '-' ∉ t.value.toList

theorem Token.Lexed.plainName {t : Token} (lexed : t.Lexed) (kind : t.kind = .ident)
    (noPoint : Text.contains t.value '.' = false) : PlainName t.value where
  noPoint := by simpa [Text.contains] using noPoint
  noArrow := lexed kind

namespace Lexeme

theorem not_isNamePart_arrow : isNamePart '-' = false := by decide

theorem noArrow_word (first : c ≠ '-') (cs : List Char) : '-' ∉ (word c cs).value.toList := by
  have tail : '-' ∉ cs.takeWhile isNamePart := by
    intro mem
    have part := all_eq_true.mp all_takeWhile _ mem
    rw [not_isNamePart_arrow] at part
    cases part
  unfold word
  dsimp only
  split
  · simp
  · simp [first.symm, tail]

theorem noArrow_of_ident (h : read comments c cs = .ok x)
    (kind : x.kind = .ident) : '-' ∉ x.value.toList := by
  obtain ⟨first, rfl⟩ := word_of_ident h kind
  refine noArrow_word ?_ cs
  rintro rfl
  cases first

end Lexeme

theorem Tokens.scan_lexed (comments : Bool) (file : Nat) (p : Place) (cs : List Char) :
    ∀ t ∈ (scan comments file p cs).tokens, t.Lexed := by
  fun_induction scan comments file p cs with
  | case1 =>
    intro t ht
    obtain rfl := mem_singleton.mp ht
    exact fun kind => nomatch kind
  | case2 => exact forall_mem_nil _
  | case3 p cs blanks p' c rest h lexeme read token ih =>
    intro t ht
    rcases mem_cons.mp ht with rfl | ht
    · exact fun kind => Lexeme.noArrow_of_ident read kind
    · exact ih t ht

end Impulse
