import Impulse.Proofs.AgreedExpressions
import Impulse.Proofs.Shadowing
import Impulse.Proofs.Tiling
import Mathlib.Data.List.Induction

/-!
# Excerpts

The line and the column of a token count the line ends in front of it and the characters between the last of them and
the token. A report about the token shows that line, with a caret below the token's first character.
-/

namespace Impulse

open List

namespace Text

/-- The text around an offset: the lines above, the two sides of the line that the offset is in, and what stands behind
that line, from its line end on. -/
structure Around (text : List Char) (offset : Nat) (above left right below : List Char) : Prop where
  whole : text = above ++ (left ++ right) ++ below
  here : offset = (above ++ left).length
  starts : above = [] ∨ above.getLast? = some '\n'
  line : '\n' ∉ left ++ right
  ends : below = [] ∨ below.head? = some '\n'

theorem exists_lastLine (cs : List Char) :
    ∃ above left, cs = above ++ left ∧ (above = [] ∨ above.getLast? = some '\n') ∧ '\n' ∉ left := by
  induction cs using List.reverseRecOn with
  | nil => exact ⟨[], [], rfl, .inl rfl, not_mem_nil⟩
  | append_singleton cs c ih =>
    by_cases hc : c = '\n'
    · exact ⟨cs ++ [c], [], (append_nil _).symm, .inr (hc ▸ List.getLast?_concat), not_mem_nil⟩
    · obtain ⟨above, left, rfl, starts, free⟩ := ih
      refine ⟨above, left ++ [c], append_assoc .., starts, ?_⟩
      rw [mem_append, mem_singleton]
      exact fun h => h.elim free fun same => hc same.symm

theorem exists_around (inside : offset ≤ text.length) :
    ∃ above left right below, Around text offset above left right below := by
  obtain ⟨above, left, front, starts, free⟩ := exists_lastLine (text.take offset)
  let p : Char → Bool := (· != '\n')
  refine ⟨above, left, (text.drop offset).takeWhile p, (text.drop offset).dropWhile p, ?_, ?_, starts, ?_, ?_⟩
  · rw [append_assoc, append_assoc, takeWhile_append_dropWhile, ← append_assoc, ← front,
      take_append_drop]
  · rw [← front, length_take_of_le inside]
  · rw [mem_append]
    exact fun h => h.elim free fun h => absurd (mem_takeWhile_imp h) (by decide)
  · have first := List.head?_dropWhile_not p (text.drop offset)
    cases rest : (text.drop offset).dropWhile p with
    | nil => exact .inl rfl
    | cons c cs =>
      rw [rest] at first
      exact .inr (congrArg some (by simpa [p] using first))

theorem length_splitWhere (sep : Char → Bool) (cs : List Char) : (splitWhere sep cs).length = cs.countP sep + 1 := by
  induction cs with
  | nil => rfl
  | cons c cs ih =>
    rw [splitWhere, countP_cons]
    split
    · rw [length_cons, ih]
    · cases cut : splitWhere sep cs with
      | nil => exact absurd cut (splitWhere_ne_nil sep cs)
      | cons piece pieces => rw [← ih, cut]; rfl

theorem repeated_ofList (c : Char) (n : Nat) : repeated (String.ofList [c]) n = String.ofList (List.replicate n c) := by
  induction n with
  | zero => rfl
  | succ n ih => rw [repeated, ih, ← String.ofList_append, replicate_succ, singleton_append]

namespace Around

variable (h : Around text offset above left right below)
include h

theorem take_eq : text.take offset = above ++ left := by
  rw [h.whole, h.here, append_assoc, append_assoc, ← append_assoc, take_left]

theorem count_eq : (text.take offset).count '\n' = above.count '\n' := by
  rw [h.take_eq, count_append, count_eq_zero_of_not_mem fun hl => h.line (mem_append_left _ hl)]
  rfl

theorem piece : (splitWhere (· == '\n') text)[above.count '\n']? = some (left ++ right) := by
  have free : ∀ c ∈ left ++ right, (c == '\n') = false :=
    fun c hc => beq_false_of_ne fun same => h.line (same ▸ hc)
  have first : (splitWhere (· == '\n') (left ++ right ++ below))[0]? = some (left ++ right) := by
    cases below with
    | nil => rw [append_nil, splitWhere_of_none free]; rfl
    | cons c below =>
      have ended : c = '\n' := (h.ends.resolve_left (cons_ne_nil _ _)) |> Option.some.inj
      rw [splitWhere_append free (beq_iff_eq.mpr ended)]
      rfl
  rw [h.whole, append_assoc]
  rcases h.starts with rfl | last
  · exact first
  · obtain ⟨lines, rfl⟩ := List.getLast?_eq_some_iff.mp last
    have size : (lines ++ ['\n']).count '\n' = (splitWhere (· == '\n') lines).length := by
      rw [length_splitWhere, count_append]
      rfl
    rw [append_assoc, singleton_append, size, splitWhere_append_sep (by rfl),
      List.getElem?_append_right (Nat.le_refl _), Nat.sub_self]
    exact first

end Around

end Text

namespace Place

theorem line_after (p : Place) (cs : List Char) : (p.after cs).line = p.line + cs.count '\n' := by
  induction cs generalizing p with
  | nil => rfl
  | cons c cs ih =>
    change ((p.next c).after cs).line = _
    rw [ih, next, count_cons]
    by_cases hc : c = '\n'
    · simp only [hc, if_true, beq_self_eq_true]
      omega
    · simp only [hc, if_false, beq_iff_eq]
      rfl

theorem column_after (p : Place) (free : '\n' ∉ cs) : (p.after cs).column = p.column + cs.length := by
  induction cs generalizing p with
  | nil => rfl
  | cons c cs ih =>
    have plain : c ≠ '\n' := fun same => free (same ▸ .head _)
    change ((p.next c).after cs).column = _
    rw [ih _ fun h => free (.tail _ h), next, if_neg plain, length_cons, Nat.add_assoc, Nat.add_comm 1]

theorem column_after_start (starts : above = [] ∨ above.getLast? = some '\n')
    (free : '\n' ∉ left) : (start.after (above ++ left)).column = 1 + left.length := by
  rw [after_append, column_after _ free]
  rcases starts with rfl | last
  · rfl
  · obtain ⟨lines, rfl⟩ := List.getLast?_eq_some_iff.mp last
    rw [after_append]
    rfl

end Place

namespace Report

theorem sourceLine_of_getElem? (h : (Text.splitOn '\n' text)[n]? = some line) :
    sourceLine text (1 + n : Nat) = line := by
  have inside : n < (Text.splitOn '\n' text).length := (List.getElem?_eq_some_iff.mp h).1
  have index : min (max ((1 + n : Nat) : Int) 1 - 1).toNat ((Text.splitOn '\n' text).length - 1) = n := by omega
  rw [sourceLine, index, getD_eq_getElem?_getD, h]
  rfl

theorem caret_span (t : Token) : caret t.span.length = String.ofList ('^' :: List.replicate (t.length - 1) '~') := by
  have tail : (t.span.length - 1).toNat = t.length - 1 := by
    simp only [Token.span]
    omega
  rw [caret, tail, Text.repeated_ofList '~']
  exact String.ofList_append.symm

end Report

theorem Tokens.tile_of_mem
    (ht : t ∈ (tokenize comments file text).tokens) :
    ∃ offset, offset ≤ text.toList.length ∧ Place.start.after (text.toList.take offset) = ⟨t.line, t.column⟩ ∧
      (t.kind = .endOfFile ∧ t.length = 0 ∧ offset = text.toList.length ∨
        Tile.Fits comments file text.toList ⟨offset, t⟩) := by
  obtain ⟨tiles, stop, -, inside, tiled⟩ :=
    scan_tiled comments file text.toList Place.start text.toList 0 (Nat.zero_le _) rfl rfl
  change Tiled comments file text.toList 0 stop tiles (tokenize comments file text) at tiled
  have split : t ∈ tiles.map Tile.token ∨ t = ⟨.endOfFile, "", file, (Place.start.after text.toList).line,
      (Place.start.after text.toList).column, 0⟩ := by
    cases failure : (tokenize comments file text).failure with
    | none => rwa [(tiled.whole failure).2, mem_append, mem_singleton] at ht
    | some failed => exact .inl ((tiled.stopped failed.1 failed.2 failure).1 ▸ ht)
  obtain tile | rfl := split
  · obtain ⟨⟨offset, token⟩, mem, rfl⟩ := mem_map.mp tile
    have fits := tiled.tiling.fits _ mem
    have low : offset ≤ text.toList.length := (Nat.le_add_right ..).trans fits.inside
    exact ⟨offset, low, (fits.placed offset low).mpr rfl, .inr fits⟩
  · exact ⟨_, Nat.le_refl _, by rw [take_length], .inl ⟨rfl, rfl, rfl⟩⟩

/-- A token's line is one more than the number of line ends in front of it, and its column one more than the number of
characters between the last of them and the token. A report about it shows the line it stands in, without the line end,
and below it a caret in the token's column, with a tail that makes it as wide as the token. -/
theorem tokenize_excerpt {comments : Bool} {file : Nat} {text : String} {t : Token}
    (ht : t ∈ (tokenize comments file text).tokens) :
    ∃ offset above left right below, Text.Around text.toList offset above left right below ∧
      (t.kind = .endOfFile ∧ t.length = 0 ∧ offset = text.toList.length ∨
        Tile.Fits comments file text.toList ⟨offset, t⟩) ∧
      t.line = 1 + (text.toList.take offset).count '\n' ∧ t.column = 1 + left.length ∧
      ∀ color files name, files[file]? = some ⟨name, text⟩ →
        Report.excerpt color files t.span = "  " ++ String.ofList (left ++ right) ++ "\n  " ++
          String.ofList (List.replicate (t.column - 1) ' ') ++
          Report.paint color "32" (String.ofList ('^' :: List.replicate (t.length - 1) '~')) ++ "\n" := by
  obtain ⟨offset, inside, placed, tile⟩ := Tokens.tile_of_mem ht
  obtain ⟨above, left, right, below, around⟩ := Text.exists_around inside
  have line : t.line = 1 + (text.toList.take offset).count '\n' := by
    have counted := Place.line_after Place.start (text.toList.take offset)
    rwa [placed] at counted
  have column : t.column = 1 + left.length := by
    rw [← Place.column_after_start around.starts fun h => around.line (mem_append_left _ h), ← around.take_eq,
      placed]
  refine ⟨offset, above, left, right, below, around, tile, line, column, ?_⟩
  intro color files name named
  have source : Report.file? files t.span.file = some ⟨name, text⟩ := by
    rw [← named, ← (Tokens.scan_file comments file Place.start text.toList).1 t ht]
    rfl
  have shown : Report.sourceLine text t.span.line = String.ofList (left ++ right) := by
    rw [Token.span, line, around.count_eq]
    refine Report.sourceLine_of_getElem? ?_
    rw [Text.splitOn, List.getElem?_map, around.piece]
    rfl
  have indent : (max t.span.column 1 - 1).toNat = t.column - 1 := by
    simp only [Token.span]
    omega
  rw [Report.excerpt, source]
  dsimp only
  rw [if_neg (by simp only [Token.span]; omega), shown, indent, Text.repeated_ofList ' ', Report.caret_span]

theorem tokenize_excerpt_secondLine :
    let text := "a\n \"b\" c\n"
    let t : Token := ⟨.string, "b", 0, 2, 2, 3⟩
    t ∈ (tokenize true 0 text).tokens ∧ ∃ offset above left right below,
      Text.Around text.toList offset above left right below ∧ left.length = 1 ∧
      Report.excerpt false [⟨"main.imp", text⟩] t.span = "  " ++ String.ofList (left ++ right) ++ "\n   ^~~\n" := by
  intro text t
  have ht : t ∈ (tokenize true 0 text).tokens := by decide +kernel
  obtain ⟨offset, above, left, right, below, around, -, -, column, shown⟩ := tokenize_excerpt ht
  have own := shown false [⟨"main.imp", text⟩] "main.imp" rfl
  rw [String.append_assoc, String.append_assoc, String.append_assoc] at own
  exact ⟨ht, offset, above, left, right, below, around, (Nat.add_left_cancel column).symm, own⟩

end Impulse
