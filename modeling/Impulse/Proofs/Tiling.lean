import Impulse.Proofs.LineEnds
import Mathlib.Data.List.TakeWhile

/-!
# Tokens tile their text

The tokens of a text cover stretches of it that lie one behind the other, and only separators are left between them.
Each token is made of the characters it covers and of nothing else: read alone, they give the same token again.
-/

namespace Impulse

open List Text

variable (p : Place)

namespace Place

/-- The place `p` is further up than `q`, or further left in the same line. -/
def Before (p q : Place) : Prop :=
  p.line < q.line ∨ p.line = q.line ∧ p.column < q.column

theorem before_next (c : Char) : p.Before (p.next c) := by
  unfold next
  split
  · exact .inl (Nat.lt_succ_self _)
  · exact .inr ⟨rfl, Nat.lt_succ_self _⟩

theorem Before.trans {p q r : Place} (h : p.Before q) (h' : q.Before r) : p.Before r := by
  unfold Before at *
  omega

theorem Before.ne {p q : Place} (h : p.Before q) : p ≠ q := by
  rintro rfl
  unfold Before at h
  omega

theorem before_after (c : Char) (cs : List Char) : p.Before (p.after (c :: cs)) := by
  induction cs generalizing p c with
  | nil => exact before_next p c
  | cons d cs ih => exact (before_next p c).trans (ih (p.next c) d)

theorem after_append (cs ds : List Char) : p.after (cs ++ ds) = (p.after cs).after ds :=
  foldl_append

theorem after_take_add (cs : List Char) (i k : Nat) :
    p.after (cs.take (i + k)) = (p.after (cs.take i)).after ((cs.drop i).take k) := by
  rw [take_add, after_append]

theorem before_after_take {cs : List Char} (h : i < j) (inside : j ≤ cs.length) :
    (p.after (cs.take i)).Before (p.after (cs.take j)) := by
  obtain ⟨k, rfl⟩ := Nat.exists_eq_add_of_lt h
  rw [Nat.add_assoc, after_take_add]
  cases further : cs.drop i with
  | nil =>
    have := drop_eq_nil_iff.mp further
    omega
  | cons c rest => exact before_after _ c _

theorem after_take_inj {cs : List Char} (hi : i ≤ cs.length) (hj : j ≤ cs.length)
    (same : p.after (cs.take i) = p.after (cs.take j)) : i = j := by
  rcases Nat.lt_trichotomy i j with less | equal | greater
  · exact absurd same (before_after_take p less hj).ne
  · exact equal
  · exact absurd same.symm (before_after_take p greater hi).ne

end Place

/-- A token, and the offset of the first character it covers. -/
structure Tile where
  start : Nat
  token : Token

namespace Tile

def stop (t : Tile) : Nat :=
  t.start + t.token.length

def chars (t : Tile) (text : List Char) : List Char :=
  (text.drop t.start).take t.token.length

/-- The token covers characters of the text, and its line and column are those of the first of them and of no other
offset. Its characters alone are a text of two tokens: the same one, and the end of the file. -/
structure Fits (comments : Bool) (file : Nat) (text : List Char) (t : Tile) : Prop where
  full : 0 < t.token.length
  inside : t.stop ≤ text.length
  placed : ∀ i, i ≤ text.length → (Place.start.after (text.take i) = ⟨t.token.line, t.token.column⟩ ↔ i = t.start)
  kind : t.token.kind ≠ .endOfFile
  alone : tokenize comments file (String.ofList (t.chars text)) =
    ⟨[{ t.token with line := 1, column := 1 },
      ⟨.endOfFile, "", file, (Place.start.after (t.chars text)).line, (Place.start.after (t.chars text)).column, 0⟩],
      none⟩

end Tile

/-- The tiles lie one behind the other between two offsets of the text, and only separators are outside of them. -/
structure Tiling (comments : Bool) (file : Nat) (text : List Char) (first last : Nat) (tiles : List Tile) : Prop where
  fits : ∀ t ∈ tiles, t.Fits comments file text
  within : ∀ t ∈ tiles, first ≤ t.start ∧ t.stop ≤ last
  ordered : tiles.Pairwise fun t t' => t.stop ≤ t'.start
  covered : ∀ i c, first ≤ i → i < last → text[i]? = some c →
    (∃ t ∈ tiles, t.start ≤ i ∧ i < t.stop) ∨ isSeparator c = true

namespace Tiling

theorem blank {i k : Nat} (blanks : ∀ c ∈ (text.drop i).take k, isSeparator c = true) :
    Tiling comments file text i (i + k) [] where
  fits := forall_mem_nil _
  within := forall_mem_nil _
  ordered := .nil
  covered := by
    intro j c low high found
    refine .inr (blanks c (mem_iff_getElem?.mpr ⟨j - i, ?_⟩))
    rw [List.getElem?_take_of_lt (by omega), List.getElem?_drop, Nat.add_sub_cancel' low, found]

theorem cons {first last : Nat} (blanks : Tiling comments file text first t.start []) (low : first ≤ t.start)
    (fits : t.Fits comments file text) (further : Tiling comments file text t.stop last tiles) (high : t.stop ≤ last) :
    Tiling comments file text first last (t :: tiles) where
  fits := forall_mem_cons.mpr ⟨fits, further.fits⟩
  within := by
    refine forall_mem_cons.mpr ⟨⟨low, high⟩, fun t' ht' => ?_⟩
    obtain ⟨behind, inside⟩ := further.within t' ht'
    exact ⟨by unfold Tile.stop at behind; omega, inside⟩
  ordered := .cons (fun t' ht' => (further.within t' ht').1) further.ordered
  covered := by
    intro i c above below found
    -- The offset lies in front of the tile, on it, or behind it.
    by_cases front : i < t.start
    · obtain ⟨t', ht', -⟩ | separator := blanks.covered i c above front found
      · cases ht'
      · exact .inr separator
    by_cases own : i < t.stop
    · exact .inl ⟨t, mem_cons_self, Nat.le_of_not_lt front, own⟩
    · obtain ⟨t', ht', covers⟩ | separator := further.covered i c (Nat.le_of_not_lt own) below found
      · exact .inl ⟨t', mem_cons_of_mem t ht', covers⟩
      · exact .inr separator

theorem length_le {first last : Nat} (h : Tiling comments file text first last tiles) (order : first ≤ last) :
    first + tiles.length ≤ last := by
  obtain ⟨fits, within, ordered, -⟩ := h
  induction tiles generalizing first with
  | nil => exact order
  | cons t tiles ih =>
    obtain ⟨low, high⟩ := within t mem_cons_self
    have further := ih high (fun t' ht' => fits t' (mem_cons_of_mem t ht'))
      (fun t' ht' => ⟨rel_of_pairwise_cons ordered ht', (within t' (mem_cons_of_mem t ht')).2⟩)
      ordered.of_cons
    have full := (fits t mem_cons_self).full
    rw [length_cons]
    unfold Tile.stop at further
    omega

end Tiling

namespace Tokens

variable {p : Place}

/-- The tokens are those of tiles of the text from the offset `first` on. If all of the text was read, the end of the
file stands behind it. Otherwise reading stopped at the first character that begins no token. -/
structure Tiled (comments : Bool) (file : Nat) (text : List Char) (first stop : Nat) (tiles : List Tile)
    (ts : Tokens) : Prop where
  tiling : Tiling comments file text first stop tiles
  whole : ts.failure = none → stop = text.length ∧ ts.tokens = tiles.map Tile.token ++
    [⟨.endOfFile, "", file, (Place.start.after text).line, (Place.start.after text).column, 0⟩]
  stopped : ∀ mark problem, ts.failure = some (mark, problem) → ts.tokens = tiles.map Tile.token ∧
    ∃ c rest size, text.drop stop = c :: rest ∧ Lexeme.read comments c rest = .error (problem, size) ∧
      mark = ⟨.endOfFile, "", file, (Place.start.after (text.take stop)).line,
        (Place.start.after (text.take stop)).column, size⟩

theorem scan_nil (comments : Bool) (file : Nat) (p : Place) :
    scan comments file p [] = ⟨[⟨.endOfFile, "", file, p.line, p.column, 0⟩], none⟩ := by
  rw [scan]
  rfl

theorem scan_alone (plain : isSeparator c = false)
    (read : Lexeme.read comments c rest = .ok l) (file : Nat) (p : Place) :
    scan comments file p ((c :: rest).take l.size) = ⟨[⟨l.kind, l.value, file, p.line, p.column, l.size⟩,
        ⟨.endOfFile, "", file, (p.after ((c :: rest).take l.size)).line,
          (p.after ((c :: rest).take l.size)).column, 0⟩], none⟩ := by
  have covered : (c :: rest).take l.size = c :: rest.take (l.size - 1) := by
    obtain ⟨k, size⟩ := Nat.exists_eq_succ_of_ne_zero (Nat.ne_of_gt l.size_pos)
    rw [size, take_succ_cons, Nat.succ_sub_one]
  have alone := Lexeme.read_take comments read
  have behind : (c :: rest.take (l.size - 1)).dropWhile isSeparator = c :: rest.take (l.size - 1) := by
    rw [dropWhile_cons_of_neg (by simp [plain])]
  have before : (c :: rest.take (l.size - 1)).takeWhile isSeparator = [] := by
    rw [takeWhile_cons_of_neg (by simp [plain])]
  rw [covered, scan_of_read behind alone, before, ← covered, take_take, Nat.min_self,
    drop_eq_nil_of_le (length_take_le _ _), scan_nil]
  rfl

theorem skip_separators (comments : Bool) (file : Nat) (inside : first ≤ text.length)
    (here : Place.start.after (text.take first) = p) (left : text.drop first = cs) :
    ∃ start, first ≤ start ∧ start ≤ text.length ∧ Tiling comments file text first start [] ∧
      Place.start.after (text.take start) = p.after (cs.takeWhile isSeparator) ∧
      text.drop start = cs.dropWhile isSeparator := by
  have cut : (cs.takeWhile isSeparator ++ cs.dropWhile isSeparator).drop (cs.takeWhile isSeparator).length
      = cs.dropWhile isSeparator := drop_left
  rw [takeWhile_append_dropWhile] at cut
  have short : (cs.takeWhile isSeparator).length ≤ cs.length := (List.takeWhile_prefix isSeparator).length_le
  have size : cs.length = text.length - first := by rw [← left, length_drop]
  refine ⟨first + (cs.takeWhile isSeparator).length, Nat.le_add_right _ _, by omega, .blank ?_, ?_, ?_⟩
  · rw [left, Lexeme.take_length_takeWhile]
    exact fun c hc => mem_takeWhile_imp hc
  · rw [Place.after_take_add, here, left, Lexeme.take_length_takeWhile]
  · rw [← drop_drop, left, cut]

theorem fits_of_read (inside : start ≤ text.length)
    (behind : text.drop start = c :: rest) (plain : isSeparator c = false)
    (read : Lexeme.read comments c rest = .ok l) (file : Nat) :
    Tile.Fits comments file text ⟨start, l.kind, l.value, file, (Place.start.after (text.take start)).line,
      (Place.start.after (text.take start)).column, l.size⟩ where
  full := l.size_pos
  inside := by
    have size : (c :: rest).length = text.length - start := by rw [← behind, length_drop]
    have within := (Lexeme.read_append comments read []).2
    rw [length_cons] at size
    show start + l.size ≤ text.length
    omega
  placed i hi := ⟨fun same => Place.after_take_inj _ hi inside same, fun same => same ▸ rfl⟩
  kind := Lexeme.kind_ne_endOfFile read
  alone := by
    have chars : Tile.chars ⟨start, l.kind, l.value, file, (Place.start.after (text.take start)).line,
        (Place.start.after (text.take start)).column, l.size⟩ text = (c :: rest).take l.size := by
      rw [← behind]
      rfl
    rw [chars, tokenize, String.toList_ofList, scan_alone plain read]
    rfl

theorem scan_tiled (comments : Bool) (file : Nat) (text : List Char) (p : Place) (cs : List Char) (first : Nat)
    (inside : first ≤ text.length) (here : Place.start.after (text.take first) = p) (left : text.drop first = cs) :
    ∃ tiles stop, first ≤ stop ∧ stop ≤ text.length ∧
      Tiled comments file text first stop tiles (scan comments file p cs) := by
  -- Each round skips separators and reads one token, whose tile is put in front of the tiles of the rest.
  fun_induction scan comments file p cs generalizing first with
  | case1 p cs blanks q ended =>
    obtain ⟨start, low, high, blank, spot, behind⟩ :=
      skip_separators comments file inside here left
    have atEnd : start = text.length := Nat.le_antisymm high (drop_eq_nil_iff.mp (behind.trans ended))
    rw [atEnd, take_length] at spot
    exact ⟨[], start, low, high, blank, fun _ => ⟨atEnd, by rw [spot]; rfl⟩, by rintro mark problem ⟨⟩⟩
  | case2 p cs blanks q c rest h problem size failed =>
    obtain ⟨start, low, high, blank, spot, behind⟩ :=
      skip_separators comments file inside here left
    refine ⟨[], start, low, high, blank, by rintro ⟨⟩, ?_⟩
    rintro mark problem ⟨⟩
    exact ⟨rfl, c, rest, size, behind.trans h, failed, by rw [spot]⟩
  | case3 p cs blanks q c rest h lexeme read token ih =>
    obtain ⟨start, low, high, blank, spot, behind⟩ :=
      skip_separators comments file inside here left
    rw [h] at behind
    have plain : isSeparator c = false := by
      have head := List.head?_dropWhile_not isSeparator cs
      rwa [h] at head
    have fits : Tile.Fits comments file text ⟨start, token⟩ := by
      have own := fits_of_read high behind plain read file
      rwa [spot] at own
    have inside' : start + lexeme.size ≤ text.length := fits.inside
    obtain ⟨tiles, stop, further, ends, tiled⟩ := ih (start + lexeme.size) inside'
      (by rw [Place.after_take_add, spot, behind]) (by rw [← drop_drop, behind])
    refine ⟨⟨start, token⟩ :: tiles, stop, by omega, ends, .cons blank low fits tiled.tiling further, ?_, ?_⟩
    · intro whole
      obtain ⟨all, tokens⟩ := tiled.whole whole
      exact ⟨all, congrArg (token :: ·) tokens⟩
    · intro mark problem failed
      obtain ⟨tokens, reason⟩ := tiled.stopped mark problem failed
      exact ⟨congrArg (token :: ·) tokens, reason⟩

end Tokens

/-- Every text is cut into tokens, no more than it has characters and one. They tile it up to its end, where the end of
the file stands, or up to the first character behind them that begins no token. -/
theorem tokenize_tiles (comments : Bool) (file : Nat) (text : String) :
    (tokenize comments file text).tokens.length ≤ text.length + 1 ∧ ∃ tiles stop, stop ≤ text.length ∧
        (tokenize comments file text).Tiled comments file text.toList 0 stop tiles := by
  obtain ⟨tiles, stop, -, inside, tiled⟩ :=
    Tokens.scan_tiled comments file text.toList Place.start text.toList 0 (Nat.zero_le _) rfl rfl
  have few := tiled.tiling.length_le (Nat.zero_le stop)
  rw [String.length_toList] at inside
  refine ⟨?_, tiles, stop, inside, tiled⟩
  change Tokens.Tiled comments file text.toList 0 stop tiles (tokenize comments file text) at tiled
  cases failure : (tokenize comments file text).failure with
  | none =>
    rw [(tiled.whole failure).2, length_append, length_map]
    simp only [length_cons, length_nil]
    omega
  | some failed =>
    rw [(tiled.stopped failed.1 failed.2 failure).1, length_map]
    omega

theorem tokenize_tiles_groups :
    let closed := "x: [1, [\"]\"]] // end"
    let unclosed := "x: [1, [2]"
    (∃ tiles, Tiling true 0 closed.toList 0 closed.length tiles ∧ tiles.map (·.token.length) = [1, 1, 10, 6]) ∧
      ∃ tiles, Tiling true 0 unclosed.toList 0 3 tiles ∧ tiles.map (·.token.length) = [1, 1] := by
  intro closed unclosed
  constructor
  · obtain ⟨-, tiles, stop, -, tiled⟩ := tokenize_tiles true 0 closed
    obtain ⟨atEnd, tokens⟩ := tiled.whole (by decide +kernel)
    have lengths : (tokenize true 0 closed).tokens.map (·.length) = [1, 1, 10, 6] ++ [0] := by decide +kernel
    rw [tokens, map_append, map_map] at lengths
    rw [String.length_toList] at atEnd
    exact ⟨tiles, atEnd ▸ tiled.tiling, append_cancel_right lengths⟩
  · obtain ⟨-, tiles, stop, inside, tiled⟩ := tokenize_tiles true 0 unclosed
    have failure : (tokenize true 0 unclosed).failure
        = some (⟨.endOfFile, "", 0, 1, 4, 7⟩, .unterminatedGroup) := by decide +kernel
    have lengths : (tokenize true 0 unclosed).tokens.map (·.length) = [1, 1] := by decide +kernel
    obtain ⟨tokens, c, rest, size, -, -, mark⟩ := tiled.stopped _ _ failure
    have here : Place.start.after (unclosed.toList.take stop) = Place.start.after (unclosed.toList.take 3) := by
      rcases place : Place.start.after (unclosed.toList.take stop) with ⟨line, column⟩
      rw [place] at mark
      cases mark
      decide
    have third : stop = 3 := Place.after_take_inj _ (by rwa [String.length_toList]) (by decide) here
    rw [tokens, map_map] at lengths
    exact ⟨tiles, third ▸ tiled.tiling, lengths⟩

end Impulse
