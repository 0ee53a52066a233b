import Impulse.Proofs.Names

/-!
# Texts that go on behind a line end

No token of a text changes if the text goes on behind a line end. Names, numbers and comments end there anyway; a
string or a bracket group that was closed stays closed; and a colon or a slash in front of a line end stands alone. So
the tokens of the whole text are those of its first part, the line end, and those of the rest, which stand below.
-/

namespace Impulse

open List Text

variable (comments : Bool)

namespace Lexeme

variable {cs ds : List Char}

theorem takeWhile_append_cons {p : Char → Bool} (stop : p c = false) (cs ds : List Char) :
    (cs ++ c :: ds).takeWhile p = cs.takeWhile p := by
  induction cs with
  | nil => simp [stop]
  | cons d cs ih => rw [cons_append, takeWhile_cons, takeWhile_cons, ih]

theorem quotedSize_cons (plain : c ≠ '\\') (q : Char) (cs : List Char) :
    quotedSize q (c :: cs) = if c = '\n' then (false, 1) else if c = q then (true, 1)
      else ((quotedSize q cs).1, (quotedSize q cs).2 + 1) := by
  rw [quotedSize.eq_4 q c cs (fun same _ => plain same) fun _ _ same _ => plain same]

theorem quotedSize_take_append (h : quotedSize q cs = (true, n)) (ds : List Char) :
    quotedSize q (cs.take n ++ ds) = (true, n) ∧ n ≤ cs.length := by
  have plain {c : Char} {cs : List Char} (noEnd : c = '\\' → cs = [] → False)
      (noPair : ∀ d ds, c = '\\' → cs = d :: ds → False) : c ≠ '\\' := by
    cases cs with
    | nil => exact fun same => noEnd same rfl
    | cons d cs => exact fun same => noPair d cs same rfl
  fun_induction quotedSize q cs generalizing n with
  | case1 | case2 | case4 => cases h
  | case3 d cs closed size inner ih =>
    cases h
    obtain ⟨same, within⟩ := ih inner
    rw [take_succ_cons, take_succ_cons, cons_append, cons_append, quotedSize, same]
    exact ⟨rfl, Nat.succ_le_succ (Nat.succ_le_succ within)⟩
  | case5 cs noEnd noPair noLine =>
    cases h
    rw [take_succ_cons, cons_append, quotedSize_cons (plain noEnd noPair), if_neg noLine, if_pos rfl]
    exact ⟨rfl, Nat.succ_le_succ (Nat.zero_le _)⟩
  | case6 c cs noEnd noPair noLine noQuote closed size inner ih =>
    cases h
    obtain ⟨same, within⟩ := ih inner
    rw [take_succ_cons, cons_append, quotedSize_cons (plain noEnd noPair), if_neg noLine, if_neg noQuote, same]
    exact ⟨rfl, Nat.succ_le_succ within⟩

theorem groupSize_take_append {quote} (h : groupSize depth quote cs = some n)
    (ds : List Char) : groupSize depth quote (cs.take n ++ ds) = some n ∧ n ≤ cs.length := by
  -- The characters in front of a group that stays closed are counted as before.
  have counted {n k size : Nat} {x : Option Nat} {y : Nat → Option Nat}
      (ih : ∀ {n}, x = some n → y n = some n ∧ n ≤ size) (h : x.map (· + k) = some n) :
      ∃ m, n = m + k ∧ (y m).map (· + k) = some n ∧ n ≤ size + k := by
    obtain ⟨m, found, rfl⟩ := Option.map_eq_some_iff.mp h
    obtain ⟨same, within⟩ := ih found
    exact ⟨m, rfl, congrArg (Option.map (· + k)) same, Nat.add_le_add_right within k⟩
  fun_induction groupSize depth quote cs generalizing n with
  | case1 | case2 => cases h
  | case3 depth q d cs ih =>
    obtain ⟨m, rfl, read⟩ := counted ih h
    rw [take_succ_cons, take_succ_cons, cons_append, cons_append, groupSize, if_pos rfl]
    exact read
  | case8 depth cs last =>
    cases h
    rw [take_succ_cons, cons_append, groupSize.eq_def]
    dsimp only
    rw [if_neg (by decide), if_neg (by decide), if_pos rfl, if_pos last]
    exact ⟨rfl, Nat.succ_le_succ (Nat.zero_le _)⟩
  | case4 | case5 | case6 | case7 | case9 | case10 =>
    rename_i ih
    obtain ⟨m, rfl, read⟩ := counted ih h
    rw [take_succ_cons, cons_append, groupSize.eq_def]
    simp [*]

theorem fraction_append (cs ds : List Char) : fraction (cs ++ '\n' :: ds) = fraction cs := by
  cases cs with
  | nil => rfl
  | cons point cs =>
    cases cs with
    | nil =>
      by_cases isPoint : point = '.'
      · subst isPoint
        rfl
      · unfold fraction
        split <;> split <;> simp_all
    | cons d cs =>
      by_cases isPoint : point = '.'
      · subst isPoint
        rw [cons_append, cons_append, fraction, fraction, takeWhile_append_cons (by decide)]
      · unfold fraction
        split <;> split <;> simp_all

/-- What may follow a token in place of `rest`: nothing, or `rest` itself if the text goes on behind a line end. -/
inductive Follows (rest : List Char) : List Char → Prop
  | nothing : Follows rest []
  | line (ds : List Char) : Follows rest (rest ++ '\n' :: ds)

namespace Follows

variable {p : Char → Bool} {rest tail : List Char}

theorem head (h : Follows rest tail) (line : p '\n' = false) (stops : ∀ d ∈ rest.head?, p d = false) :
    ∀ d ∈ tail.head?, p d = false := by
  cases h with
  | nothing => exact fun d mem => by cases mem
  | line ds =>
    cases rest with
    | nil => exact fun d mem => Option.some.inj mem ▸ line
    | cons c rest => exact stops

theorem takeWhile_eq_nil (h : Follows (cs.drop (cs.takeWhile p).length) tail) (line : p '\n' = false) :
    tail.takeWhile p = [] := by
  have behind : cs.drop (cs.takeWhile p).length = cs.dropWhile p := by
    have parts := congrArg (List.drop (cs.takeWhile p).length) (takeWhile_append_dropWhile (p := p) (l := cs))
    rw [drop_left] at parts
    exact parts.symm
  have stops : ∀ d ∈ tail.head?, p d = false := h.head line fun d mem => by
    have := List.head?_dropWhile_not p cs
    rwa [← behind, Option.mem_def.mp mem] at this
  cases tail with
  | nil => rfl
  | cons d tail => simp [stops d rfl]

theorem takeWhile (h : Follows (cs.drop (cs.takeWhile p).length) tail) (line : p '\n' = false) :
    (cs.takeWhile p ++ tail).takeWhile p = cs.takeWhile p := by
  rw [takeWhile_append_of_pos (all_eq_true.mp all_takeWhile), h.takeWhile_eq_nil line, append_nil]

theorem fraction (h : Follows (cs.drop (fraction cs).length) tail) :
    Lexeme.fraction (Lexeme.fraction cs ++ tail) = Lexeme.fraction cs := by
  obtain none | ⟨d, ds, digit, part, rfl⟩ := fraction_cases cs
  · rw [none] at h ⊢
    cases h with
    | nothing => rfl
    | line ds => exact (fraction_append cs ds).trans none
  · rw [part] at h ⊢
    have again : (ds.takeWhile isDigit ++ tail).takeWhile isDigit = ds.takeWhile isDigit := h.takeWhile (by decide)
    rw [cons_append, cons_append, Lexeme.fraction, if_pos digit, again]

theorem numeralTail (h : Follows (cs.drop (numeralTail cs).length) tail) :
    Lexeme.numeralTail (Lexeme.numeralTail cs ++ tail) = Lexeme.numeralTail cs := by
  unfold Lexeme.numeralTail at h ⊢
  rw [length_append, ← drop_drop] at h
  have digits : (Lexeme.fraction (cs.drop (cs.takeWhile isDigit).length) ++ tail).takeWhile isDigit = [] := by
    obtain none | ⟨d, ds, -, part, -⟩ := fraction_cases (cs.drop (cs.takeWhile isDigit).length)
    · rw [none] at h ⊢
      exact h.takeWhile_eq_nil (by decide)
    · rw [part]
      rfl
  rw [append_assoc, takeWhile_append_of_pos (all_eq_true.mp all_takeWhile), digits, append_nil,
    drop_left, h.fraction]

end Follows

theorem take_take_append (within : n ≤ cs.length) (tail : List Char) :
    (cs.take n ++ tail).take (n - 1) = cs.take (n - 1) := by
  rw [take_append_of_le_length (by simp [within]), take_take, Nat.min_eq_left (Nat.sub_le n 1)]

theorem Shape.follow (h : Shape comments c cs l) : l.size ≤ cs.length + 1 ∧
    ∀ tail, Follows (cs.drop (l.size - 1)) tail → Shape comments c (cs.take (l.size - 1) ++ tail) l := by
  cases h with
  | @comment rest on slash again =>
    subst again
    refine ⟨Nat.succ_le_succ (Nat.succ_le_succ (List.takeWhile_prefix _).length_le), fun tail follows => ?_⟩
    have same : lineComment (rest.takeWhile (· != '\n') ++ tail) = lineComment rest := by
      have body : (rest.takeWhile (· != '\n') ++ tail).takeWhile (· != '\n') = rest.takeWhile (· != '\n') :=
        follows.takeWhile (by decide)
      simp only [lineComment, body]
    show Shape comments c ('/' :: (rest.take (rest.takeWhile (· != '\n')).length ++ tail)) _
    rw [take_length_takeWhile, ← same]
    exact .comment on slash rfl
  | word first =>
    rw [size_word]
    refine ⟨Nat.succ_le_succ (List.takeWhile_prefix _).length_le, fun tail follows => ?_⟩
    have same : Lexeme.word c (cs.takeWhile isNamePart ++ tail) = Lexeme.word c cs := by
      simp only [Lexeme.word, follows.takeWhile (by decide)]
    rw [Nat.add_sub_cancel, take_length_takeWhile, ← same]
    exact .word first
  | decimal noLetter digit ends =>
    have front := numeralTail_front cs
    refine ⟨Nat.succ_le_succ front.length_le, fun tail follows => ?_⟩
    have again : numeralTail (numeralTail cs ++ tail) = numeralTail cs := follows.numeralTail
    have same : numeral c (numeralTail cs ++ tail) = numeral c cs := by simp only [numeral, again]
    show Shape comments c (cs.take (numeralTail cs).length ++ tail) _
    rw [← prefix_iff_eq_take.mp front, ← same]
    refine .decimal noLetter digit ?_
    rw [again, drop_left]
    exact follows.head (by decide) ends
  | group bracket closed =>
    have within := (groupSize_take_append closed []).2
    refine ⟨Nat.succ_le_succ within, fun tail _ => ?_⟩
    rw [← take_take_append within tail]
    exact .group bracket (groupSize_take_append closed tail).1
  | string quote closed =>
    have within := (quotedSize_take_append closed []).2
    refine ⟨Nat.succ_le_succ within, fun tail _ => ?_⟩
    rw [← take_take_append within tail]
    exact .string quote (quotedSize_take_append closed tail).1
  | char quote closed full =>
    have within := (quotedSize_take_append closed []).2
    refine ⟨Nat.succ_le_succ within, fun tail _ => ?_⟩
    rw [← take_take_append within tail]
    exact .char quote (quotedSize_take_append closed tail).1 full
  | pair colon again =>
    subst again
    exact ⟨Nat.succ_le_succ (Nat.succ_le_succ (Nat.zero_le _)), fun tail _ => .pair colon rfl⟩
  | colon colon single =>
    refine ⟨Nat.succ_le_succ (Nat.zero_le _), fun tail follows => .colon colon fun again => ?_⟩
    have other := follows.head (p := (· == ':')) (by decide) fun d mem => ?_
    · cases other ':' again
    · exact beq_false_of_ne fun same => single (same ▸ mem)
  | symbol known => exact ⟨Nat.succ_le_succ (Nat.zero_le _), fun _ _ => .symbol known⟩

theorem read_take (h : read comments c cs = .ok l) : read comments c (cs.take (l.size - 1)) = .ok l := by
  have alone := ((shape_of_read h).follow.2 [] .nothing).read
  rwa [append_nil] at alone

theorem read_append (h : read comments c cs = .ok l) (ds : List Char) :
    read comments c (cs ++ '\n' :: ds) = .ok l ∧ l.size ≤ cs.length + 1 := by
  obtain ⟨within, again⟩ := (shape_of_read h).follow
  have longer := (again _ (.line ds)).read
  rw [← append_assoc, take_append_drop] at longer
  exact ⟨longer, within⟩

theorem read_newline (cs : List Char) : read comments '\n' cs = .ok ⟨.newline, "", 1, Nat.zero_lt_one⟩ := by
  cases comments <;> rfl

end Lexeme

namespace Tokens

theorem scan_of_read {comments : Bool}
    (h : cs.dropWhile isSeparator = c :: rest) (read : Lexeme.read comments c rest = .ok l) :
    scan comments file p cs = push ⟨l.kind, l.value, file, (p.after (cs.takeWhile isSeparator)).line,
          (p.after (cs.takeWhile isSeparator)).column, l.size⟩
        (scan comments file ((p.after (cs.takeWhile isSeparator)).after ((c :: rest).take l.size))
          ((c :: rest).drop l.size)) := by
  rw [scan]
  dsimp only
  split
  · next ended =>
    rw [h] at ended
    cases ended
  · next c' rest' found =>
    obtain ⟨rfl, rfl⟩ := List.cons.inj (found.symm.trans h)
    rw [read]

theorem blanks_append (cs ds : List Char) :
    (cs ++ '\n' :: ds).takeWhile isSeparator = cs.takeWhile isSeparator ∧
      (cs ++ '\n' :: ds).dropWhile isSeparator = cs.dropWhile isSeparator ++ '\n' :: ds := by
  refine ⟨Lexeme.takeWhile_append_cons (by decide) cs ds, ?_⟩
  induction cs with
  | nil => rfl
  | cons c cs ih =>
    rw [cons_append, dropWhile_cons, dropWhile_cons, ih]
    split <;> rfl

theorem scan_append (file : Nat) (p : Place) (cs ds : List Char) (whole : (scan comments file p cs).failure = none) :
    ∃ (body : List Token) (q : Place),
      (scan comments file p cs).tokens = body ++ [⟨.endOfFile, "", file, q.line, q.column, 0⟩] ∧
      scan comments file p (cs ++ '\n' :: ds) =
        ⟨body ++ ⟨.newline, "", file, q.line, q.column, 1⟩ :: (scan comments file ⟨q.line + 1, 1⟩ ds).tokens,
          (scan comments file ⟨q.line + 1, 1⟩ ds).failure⟩ := by
  fun_induction scan comments file p cs with
  | case1 p cs blanks q ended =>
    refine ⟨[], q, rfl, ?_⟩
    obtain ⟨before, behind⟩ := blanks_append cs ds
    rw [ended, nil_append] at behind
    rw [scan_of_read behind (Lexeme.read_newline comments ds), before]
    rfl
  | case2 => cases whole
  | case3 p cs blanks q c rest h lexeme read token ih =>
    obtain ⟨body, r, tokens, further⟩ := ih whole
    refine ⟨token :: body, r, congrArg (token :: ·) tokens, ?_⟩
    obtain ⟨before, behind⟩ := blanks_append cs ds
    obtain ⟨again, within⟩ := Lexeme.read_append comments read ds
    rw [h, cons_append] at behind
    rw [scan_of_read behind again, before, ← cons_append, take_append_of_le_length within,
      drop_append_of_le_length within, further]
    rfl

end Tokens

end Impulse
