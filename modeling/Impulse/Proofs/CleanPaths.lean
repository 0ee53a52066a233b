import Impulse.Proofs.Occurrences
import Mathlib.Data.List.Induction

/-!
# Clean paths lead to the same file

Cleaning a path leaves out parts that do nothing, and parts that a `..` behind them takes back. Where every part can be
followed, nothing is lost by that: the clean path leads to the same place. This holds of putting a path behind another
one as well as of following it through the directories of a file system.
-/

namespace Impulse

open List

variable {parts : List String}

namespace Text

theorem splitOn_eq (sep : Char) (s : String) : splitOn sep s = (s.toList.splitOn sep).map String.ofList := by
  have same (cs : List Char) : splitWhere (· == sep) cs = cs.splitOnP (· == sep) := by
    induction cs with
    | nil => rfl
    | cons c cs ih =>
      rw [splitWhere, splitOnP_cons_eq_if_modifyHead, ih]
      split
      · rfl
      · cases cut : cs.splitOnP (· == sep) with
        | nil => exact absurd cut (splitOnP_ne_nil _ cs)
        | cons piece pieces => rfl
  rw [splitOn, same, splitOn_eq_splitOnP]

theorem splitOn_ne_nil (sep : Char) (s : String) : splitOn sep s ≠ [] :=
  fun none => splitWhere_ne_nil _ _ (map_eq_nil_iff.mp none)

theorem not_mem_of_mem_splitOn (h : part ∈ splitOn sep s) : sep ∉ part.toList := by
  obtain ⟨piece, cut, rfl⟩ := mem_map.mp h
  rw [String.toList_ofList]
  intro inside
  exact absurd (splitWhere_free cut sep inside) (by simp)

theorem splitOn_append (a b : String) : splitOn '/' (a ++ "/" ++ b) = splitOn '/' a ++ splitOn '/' b := by
  have cut : splitWhere (· == '/') (a.toList ++ '/' :: b.toList)
      = splitWhere (· == '/') a.toList ++ splitWhere (· == '/') b.toList := splitWhere_append_sep rfl _ _
  simp only [splitOn, String.toList_append, ← map_append, ← cut]
  rw [append_assoc]
  rfl

theorem intercalate_splitOn (s : String) : "/".intercalate (splitOn '/' s) = s := by
  rw [← String.toList_inj, String.toList_intercalate, splitOn_eq, map_map]
  simp

theorem splitOn_intercalate (nonempty : parts ≠ [])
    (free : ∀ part ∈ parts, '/' ∉ part.toList) : splitOn '/' ("/".intercalate parts) = parts := by
  have cut : (['/'].intercalate (parts.map String.toList)).splitOn '/' = parts.map String.toList :=
    List.splitOn_intercalate '/' (by simpa using free) (by simpa using nonempty)
  have slash : "/".toList = ['/'] := rfl
  rw [splitOn_eq, String.toList_intercalate, slash, cut, map_map]
  simp

theorem intercalate_append (some : parts ≠ []) (some' : parts' ≠ []) :
    "/".intercalate (parts ++ parts') = "/".intercalate parts ++ "/" ++ "/".intercalate parts' := by
  induction parts with
  | nil => exact absurd rfl some
  | cons part parts ih =>
    cases parts with
    | nil =>
      obtain ⟨next, further, rfl⟩ := exists_cons_of_ne_nil some'
      rw [singleton_append, String.intercalate_cons_cons, String.intercalate_singleton]
    | cons next parts =>
      rw [cons_append, cons_append, String.intercalate_cons_cons, ← cons_append, ih (cons_ne_nil _ _),
        String.intercalate_cons_cons]
      simp only [String.append_assoc]

theorem intercalate_sublist (h : parts.Sublist parts') :
    ("/".intercalate parts).toList.Sublist ("/".intercalate parts').toList := by
  induction h with
  | slnil => exact List.Sublist.refl _
  | @cons parts parts' part h ih =>
    refine ih.trans ?_
    cases parts' with
    | nil | cons next parts' => simp
  | @cons_cons parts parts' part h ih =>
    cases parts' with
    | nil =>
      cases h
      exact List.Sublist.refl _
    | cons next' parts' =>
      cases parts with
      | nil => simp
      | cons next parts =>
        rw [String.intercalate_cons_cons, String.intercalate_cons_cons]
        simp only [String.toList_append]
        exact (append_sublist_append_left _).mpr ih

theorem utf8ByteSize_le_of_sublist {s t : String} (h : s.toList.Sublist t.toList) :
    s.utf8ByteSize ≤ t.utf8ByteSize := by
  have sizes {cs ds : List Char} (h : cs.Sublist ds) :
      (String.ofList cs).utf8ByteSize ≤ (String.ofList ds).utf8ByteSize := by
    induction h with
    | slnil => exact Nat.le_refl _
    | cons c h ih =>
      rw [String.ofList_cons, String.utf8ByteSize_append]
      omega
    | cons_cons c h ih =>
      rw [String.ofList_cons, String.ofList_cons, String.utf8ByteSize_append, String.utf8ByteSize_append]
      omega
  simpa only [String.ofList_toList] using sizes h

namespace Path

/-- A part that stands for an item of a directory. -/
structure IsName (part : String) : Prop where
  ne_empty : part ≠ ""
  ne_here : part ≠ "."
  ne_up : part ≠ ".."

theorem part_cases (part : String) : (part = "" ∨ part = ".") ∨ part = ".." ∨ IsName part := by
  by_cases empty : part = ""
  · exact .inl (.inl empty)
  by_cases here : part = "."
  · exact .inl (.inr here)
  by_cases up : part = ".."
  · exact .inr (.inl up)
  · exact .inr (.inr ⟨empty, here, up⟩)

theorem addPart_blank (h : part = "" ∨ part = ".") : addPart absolute before part = before := by
  unfold addPart
  rw [if_pos (by simpa using h)]

theorem addPart_name (h : IsName part) : addPart absolute before part = part :: before := by
  unfold addPart
  rw [if_neg (by simp [h.ne_empty, h.ne_here]), if_neg h.ne_up]

theorem addPart_up_of_name (h : IsName part) : addPart absolute (part :: before) ".." = before := by
  simp [addPart, h.ne_up]

theorem addPart_up_of_up : addPart absolute (".." :: before) ".." = ".." :: ".." :: before := by
  simp [addPart]

theorem addPart_up_nil : addPart absolute [] ".." = if absolute then [] else [".."] := by
  simp [addPart]

theorem cleaned_sublist (absolute : Bool) (parts : List String) :
    (parts.foldl (addPart absolute) []).reverse.Sublist parts ∧
      ∀ part ∈ parts.foldl (addPart absolute) [], part = ".." ∨ IsName part := by
  induction parts using List.reverseRecOn with
  | nil => exact ⟨List.Sublist.refl _, forall_mem_nil _⟩
  | append_singleton parts part ih =>
    obtain ⟨taken, kept⟩ := ih
    rw [foldl_append, foldl_cons, foldl_nil]
    generalize parts.foldl (addPart absolute) [] = before at taken kept
    have same : before.reverse.Sublist (parts ++ [part]) := taken.trans (sublist_append_left _ _)
    have one : (part :: before).reverse.Sublist (parts ++ [part]) := by
      rw [reverse_cons]
      exact taken.append (List.Sublist.refl _)
    obtain blank | rfl | name := part_cases part
    · rw [addPart_blank blank]
      exact ⟨same, kept⟩
    · cases before with
      | nil =>
        rw [addPart_up_nil]
        cases absolute
        · exact ⟨one, by simp⟩
        · exact ⟨same, kept⟩
      | cons last before =>
        obtain rfl | name := kept last mem_cons_self
        · rw [addPart_up_of_up]
          exact ⟨one, forall_mem_cons.mpr ⟨.inl rfl, kept⟩⟩
        · rw [addPart_up_of_name name]
          rw [reverse_cons] at same
          exact ⟨(sublist_append_left _ _).trans same, fun part h => kept part (mem_cons_of_mem _ h)⟩
    · rw [addPart_name name]
      exact ⟨one, forall_mem_cons.mpr ⟨.inr name, kept⟩⟩

theorem cleaned_eq (absolute : Bool) (parts : List String) :
    ∃ ups names, (parts.foldl (addPart absolute) []).reverse = ups ++ names ∧ (∀ part ∈ ups, part = "..") ∧
      (∀ part ∈ names, IsName part) ∧ (absolute = true → ups = []) := by
  induction parts using List.reverseRecOn with
  | nil => exact ⟨[], [], rfl, forall_mem_nil _, forall_mem_nil _, fun _ => rfl⟩
  | append_singleton parts part ih =>
    obtain ⟨ups, names, eq, up, name, root⟩ := ih
    rw [foldl_append, foldl_cons, foldl_nil]
    generalize parts.foldl (addPart absolute) [] = before at eq
    obtain rfl : before = (ups ++ names).reverse := by rw [← eq, reverse_reverse]
    obtain blank | rfl | last := part_cases part
    · rw [addPart_blank blank]
      exact ⟨ups, names, reverse_reverse _, up, name, root⟩
    · cases names using List.reverseRecOn with
      | append_singleton names last =>
        rw [← append_assoc, reverse_concat, addPart_up_of_name (name last (by simp))]
        exact ⟨ups, names, reverse_reverse _, up, fun part h => name part (by simp [h]), root⟩
      | nil =>
        cases ups using List.reverseRecOn with
        | nil =>
          rw [append_nil, reverse_nil, addPart_up_nil]
          cases absolute
          · exact ⟨[".."], [], rfl, by simp, forall_mem_nil _, fun h => Bool.noConfusion h⟩
          · exact ⟨[], [], rfl, forall_mem_nil _, forall_mem_nil _, fun _ => rfl⟩
        | append_singleton ups last =>
          obtain rfl := up last (by simp)
          rw [append_nil, reverse_concat, addPart_up_of_up]
          refine ⟨ups ++ [".."] ++ [".."], [], by simp, by simpa using up, forall_mem_nil _, fun h => ?_⟩
          exact absurd (root h) (by simp)
    · rw [addPart_name last]
      refine ⟨ups, names ++ [part], by simp, up, ?_, root⟩
      intro part h
      rcases mem_append.mp h with h | h
      · exact name part h
      · rw [mem_singleton.mp h]
        exact last

theorem foldlM_concat {follow : α → String → Except ε α} :
    (parts ++ [part]).foldlM follow start = .ok goal ↔
      ∃ here, parts.foldlM follow start = .ok here ∧ follow here part = .ok goal := by
  rw [foldlM_append]
  cases parts.foldlM follow start with
  | error e =>
    constructor
    · rintro ⟨⟩
    · rintro ⟨here, ⟨⟩, -⟩
  | ok here =>
    have last : [part].foldlM follow here = follow here part := by
      rw [foldlM_cons]
      exact bind_pure (follow here part)
    constructor
    · intro h
      exact ⟨here, rfl, last.symm.trans h⟩
    · rintro ⟨here, ⟨⟩, h⟩
      exact last.trans h

theorem foldlM_cleaned (absolute : Bool) (follow : α → String → Except ε α) {start : α}
    (blank : ∀ {x y part}, part = "" ∨ part = "." → follow x part = .ok y → y = x)
    (back : ∀ {x y z name}, IsName name → follow x name = .ok y → follow y ".." = .ok z → z = x)
    (root : ∀ {z}, absolute = true → follow start ".." = .ok z → z = start) {goal : α}
    (h : parts.foldlM follow start = .ok goal) :
    (parts.foldl (addPart absolute) []).reverse.foldlM follow start = .ok goal := by
  induction parts using List.reverseRecOn generalizing goal with
  | nil => exact h
  | append_singleton parts part ih =>
    obtain ⟨here, reached, last⟩ := foldlM_concat.mp h
    have reached := ih reached
    have kept := (cleaned_sublist absolute parts).2
    rw [foldl_append, foldl_cons, foldl_nil]
    generalize parts.foldl (addPart absolute) [] = before at reached kept
    have one : (part :: before).reverse.foldlM follow start = .ok goal := by
      rw [reverse_cons]
      exact foldlM_concat.mpr ⟨here, reached, last⟩
    obtain nothing | rfl | name := part_cases part
    · rw [addPart_blank nothing, blank nothing last]
      exact reached
    · cases before with
      | nil =>
        rw [addPart_up_nil]
        cases absolute with
        | false => exact one
        | true =>
          cases reached
          rw [root rfl last]
          rfl
      | cons up before =>
        obtain rfl | name := kept up mem_cons_self
        · rw [addPart_up_of_up]
          exact one
        · rw [addPart_up_of_name name]
          rw [reverse_cons] at reached
          obtain ⟨above, reached, down⟩ := foldlM_concat.mp reached
          rw [back name down last]
          exact reached
    · rw [addPart_name name]
      exact one

theorem foldl_cleaned {inner} (root : inner = true → addPart absolute before ".." = before)
    (parts : List String) :
    (parts.foldl (addPart inner) []).reverse.foldl (addPart absolute) before
      = parts.foldl (addPart absolute) before := by
  let follow (before : List String) (part : String) : Except Unit (List String) := pure (addPart absolute before part)
  have followed (parts : List String) : parts.foldlM follow before = .ok (parts.foldl (addPart absolute) before) :=
    foldlM_pure
  have cleaned := foldlM_cleaned inner follow ?_ ?_ ?_ (followed parts)
  · exact Except.ok.inj ((followed _).symm.trans cleaned)
  · rintro x y part nothing ⟨⟩
    exact addPart_blank nothing
  · rintro x y z name hname ⟨⟩ ⟨⟩
    rw [addPart_name hname, addPart_up_of_name hname]
  · rintro z top ⟨⟩
    exact root top

theorem mem_cleanParts (h : part ∈ cleanParts path) : (part = ".." ∨ IsName part) ∧ '/' ∉ part.toList := by
  obtain ⟨taken, kept⟩ := cleaned_sublist (isAbsolute path) (splitOn '/' path)
  exact ⟨kept part (mem_reverse.mp h), not_mem_of_mem_splitOn (taken.subset h)⟩

theorem toList_of_mem_cleanParts (h : part ∈ cleanParts path) : ∃ c cs, part.toList = c :: cs ∧ c ≠ '/' := by
  obtain ⟨kind, free⟩ := mem_cleanParts h
  cases chars : part.toList with
  | nil =>
    obtain rfl := String.toList_eq_nil_iff.mp chars
    obtain up | name := kind
    · exact absurd up (by decide)
    · exact absurd rfl name.ne_empty
  | cons c cs =>
    refine ⟨c, cs, rfl, ?_⟩
    rintro rfl
    rw [chars] at free
    exact free mem_cons_self

theorem isAbsolute_of_toList (h : path.toList = c :: cs) :
    isAbsolute path = (c == '/') := by
  unfold isAbsolute startsWith
  rw [h]
  show ('/' == c && ([] : List Char).isPrefixOf cs) = _
  rw [isPrefixOf_nil_left, Bool.and_true, Bool.beq_comm]

theorem clean_of_absolute (h : isAbsolute path = true) : clean path = "/" ++ "/".intercalate (cleanParts path) := by
  unfold clean
  rw [if_pos h]

theorem toList_intercalate_cleanParts (parts : cleanParts path ≠ []) :
    ∃ c cs, ("/".intercalate (cleanParts path)).toList = c :: cs ∧ c ≠ '/' := by
  obtain ⟨part, further, eq⟩ := exists_cons_of_ne_nil parts
  obtain ⟨c, cs, chars, noSlash⟩ := toList_of_mem_cleanParts (eq ▸ mem_cons_self : part ∈ cleanParts path)
  rw [eq]
  cases further with
  | nil => exact ⟨c, cs, by rw [String.intercalate_singleton, chars], noSlash⟩
  | cons next further =>
    refine ⟨c, cs ++ "/".toList ++ ("/".intercalate (next :: further)).toList, ?_, noSlash⟩
    simp only [String.intercalate_cons_cons, String.toList_append, chars, cons_append]

theorem clean_of_relative (h : isAbsolute path = false) (parts : cleanParts path ≠ []) :
    clean path = "/".intercalate (cleanParts path) := by
  obtain ⟨c, cs, chars, -⟩ := toList_intercalate_cleanParts parts
  have nonempty : "/".intercalate (cleanParts path) ≠ "" := by
    intro none
    rw [none] at chars
    cases chars
  unfold clean
  rw [if_neg (by simp [h]), if_neg nonempty]

theorem clean_cases (path : String) :
    isAbsolute (clean path) = isAbsolute path ∧ ∃ blanks, (∀ part ∈ blanks, part = "" ∨ part = ".") ∧
      splitOn '/' (clean path) = blanks ++ cleanParts path := by
  have free : ∀ part ∈ cleanParts path, '/' ∉ part.toList := fun part h => (mem_cleanParts h).2
  cases absolute : isAbsolute path with
  | true =>
    rw [clean_of_absolute absolute]
    refine ⟨isAbsolute_of_toList (c := '/') (String.toList_append ..), ?_⟩
    by_cases parts : cleanParts path = []
    · rw [parts]
      exact ⟨["", ""], by simp, rfl⟩
    · have cut := splitOn_append "" ("/".intercalate (cleanParts path))
      rw [String.empty_append, splitOn_intercalate parts free] at cut
      exact ⟨[""], by simp, cut⟩
  | false =>
    by_cases parts : cleanParts path = []
    · have here : clean path = "." := by
        unfold clean
        rw [if_neg (by simp [absolute]), parts]
        rfl
      rw [here, parts]
      exact ⟨rfl, ["."], by simp, rfl⟩
    · rw [clean_of_relative absolute parts, splitOn_intercalate parts free]
      obtain ⟨c, cs, chars, noSlash⟩ := toList_intercalate_cleanParts parts
      exact ⟨(isAbsolute_of_toList chars).trans (beq_false_of_ne noSlash), [], forall_mem_nil _, rfl⟩

theorem foldl_addPart_clean (absolute : Bool) (before : List String) (path : String) :
    (splitOn '/' (clean path)).foldl (addPart absolute) before = (cleanParts path).foldl (addPart absolute) before := by
  obtain ⟨-, blanks, nothing, cut⟩ := clean_cases path
  have skipped : blanks.foldl (addPart absolute) before = before := by
    clear cut
    induction blanks with
    | nil => rfl
    | cons part blanks ih =>
      obtain ⟨first, further⟩ := forall_mem_cons.mp nothing
      rw [foldl_cons, addPart_blank first, ih further]
  rw [cut, foldl_append, skipped]

theorem cleanParts_clean (path : String) : cleanParts (clean path) = cleanParts path := by
  unfold cleanParts
  rw [(clean_cases path).1, foldl_addPart_clean]
  congr 1
  refine foldl_cleaned (fun top => ?_) _
  rw [top]
  rfl

theorem clean_congr (absolute : isAbsolute path = isAbsolute path')
    (parts : cleanParts path = cleanParts path') : clean path = clean path' := by
  unfold clean
  rw [absolute, parts]

theorem clean_clean (path : String) : clean (clean path) = clean path :=
  clean_congr (clean_cases path).1 (cleanParts_clean path)

/-- A clean path that goes somewhere, so that paths below it are named by what stands behind it. -/
structure IsStem (path : String) : Prop where
  isClean : clean path = path
  parts : cleanParts path ≠ []

theorem IsStem.getLast?_ne (h : IsStem path) : (splitOn '/' path).getLast? ≠ some "" := by
  obtain ⟨-, blanks, -, cut⟩ := clean_cases path
  rw [h.isClean] at cut
  rw [cut, List.getLast?_append, List.getLast?_eq_some_getLast h.parts, Option.some_or]
  intro last
  obtain ⟨c, cs, chars, -⟩ := toList_of_mem_cleanParts (getLast_mem h.parts)
  rw [Option.some.inj last] at chars
  cases chars

theorem join_eq (nonempty : root ≠ "") (path : String) : join [root, path] = clean (root ++ "/" ++ path) := by
  simp [join, nonempty]

theorem isAbsolute_append (nonempty : root ≠ "") (path : String) :
    isAbsolute (root ++ "/" ++ path) = isAbsolute root := by
  cases chars : root.toList with
  | nil => exact absurd (String.toList_eq_nil_iff.mp chars) nonempty
  | cons c cs =>
    have behind : (root ++ "/" ++ path).toList = c :: (cs ++ "/".toList ++ path.toList) := by simp [chars]
    rw [isAbsolute_of_toList chars, isAbsolute_of_toList behind]

theorem join_clean (nonempty : root ≠ "") (relative : isAbsolute path = false) :
    join [root, clean path] = join [root, path] := by
  have start := isAbsolute_append nonempty
  rw [join_eq nonempty, join_eq nonempty]
  refine clean_congr ((start _).trans (start _).symm) ?_
  unfold cleanParts
  rw [start, start, splitOn_append, splitOn_append, foldl_append, foldl_append, foldl_addPart_clean]
  congr 1
  unfold cleanParts
  rw [relative]
  exact foldl_cleaned (fun top => Bool.noConfusion top) _

theorem clean_sublist (parts : cleanParts path ≠ []) : (clean path).toList.Sublist path.toList := by
  have taken : (cleanParts path).Sublist (splitOn '/' path) := (cleaned_sublist _ _).1
  cases absolute : isAbsolute path with
  | false =>
    rw [clean_of_relative absolute parts]
    have fewer := intercalate_sublist taken
    rwa [intercalate_splitOn] at fewer
  | true =>
    obtain ⟨cs, rest⟩ : ∃ cs, path.toList = '/' :: cs := by
      cases chars : path.toList with
      | nil =>
        obtain rfl := String.toList_eq_nil_iff.mp chars
        cases absolute
      | cons c cs =>
        rw [isAbsolute_of_toList chars] at absolute
        exact ⟨cs, by rw [beq_iff_eq.mp absolute]⟩
    have cut := splitOn_append "" (String.ofList cs)
    have whole : "" ++ "/" ++ String.ofList cs = path := by
      rw [← String.toList_inj, rest]
      simp
    rw [whole] at cut
    -- The piece in front of the first slash is empty, so it is not taken.
    have behind : (cleanParts path).Sublist (splitOn '/' (String.ofList cs)) := by
      have front : (cleanParts path).Sublist ("" :: splitOn '/' (String.ofList cs)) := by
        rw [cut] at taken
        exact taken
      rcases sublist_cons_iff.mp front with behind | ⟨parts, eq, -⟩
      · exact behind
      · have first : "" ∈ cleanParts path := eq ▸ mem_cons_self
        obtain ⟨c, cs, chars, -⟩ := toList_of_mem_cleanParts first
        cases chars
    have fewer := intercalate_sublist behind
    rw [intercalate_splitOn, String.toList_ofList] at fewer
    rw [clean_of_absolute absolute, rest, String.toList_append]
    exact fewer.cons_cons '/'

end Path

end Text

namespace FileSystem

open Text.Path

variable {fs : FileSystem}

theorem follow_cons (fs : FileSystem) (x : Location) (part : String) (parts : List String) :
    fs.follow x (part :: parts) = fs.follow x [part] >>= fun y => fs.follow y parts := by
  rw [follow, follow]
  split
  · rfl
  · rfl
  · split
    · rfl
    · split
      · rfl
      · split <;> rfl

theorem follow_eq_foldlM (fs : FileSystem) (x : Location) (parts : List String) :
    fs.follow x parts = parts.foldlM (fun x part => fs.follow x [part]) x := by
  induction parts generalizing x with
  | nil => rfl
  | cons part parts ih =>
    rw [follow_cons, foldlM_cons]
    simp only [ih]

/-- The place that one part of a path leads to. -/
def stepTo (x : Location) (part : String) : Location :=
  if part = "" || part = "." then x else if part = ".." then x.dropLast else x ++ [part]

theorem stepTo_blank (h : part = "" ∨ part = ".") (x : Location) : stepTo x part = x :=
  if_pos (by simpa using h)

theorem stepTo_name (h : IsName part) (x : Location) : stepTo x part = x ++ [part] := by
  rw [stepTo, if_neg (by simp [h.ne_empty, h.ne_here]), if_neg h.ne_up]

theorem follow_cons_eq_ok : fs.follow x (part :: parts) = .ok y ↔
    fs.item? x = some .directory ∧ part.utf8ByteSize ≤ nameLimit ∧ fs.follow (stepTo x part) parts = .ok y := by
  rw [follow]
  cases item : fs.item? x with
  | none => simp
  | some found =>
    cases found with
    | file text => simp
    | directory =>
      have short {n : String} (h : n.utf8ByteSize ≤ nameLimit) (same : part = n) :
          part.utf8ByteSize ≤ nameLimit := same ▸ h
      unfold stepTo
      dsimp only
      split
      · next blank =>
        have limit : part.utf8ByteSize ≤ nameLimit :=
          (show part = "" ∨ part = "." by simpa using blank).elim (short (by decide)) (short (by decide))
        simp [limit]
      · split
        · next up => simp [short (n := "..") (by decide) up]
        · split
          · next long => simp [Nat.not_le.mpr long]
          · next fits => simp [Nat.not_lt.mp fits]

theorem follow_step (h : fs.follow x [part] = .ok y) : fs.item? x = some .directory ∧ y = stepTo x part := by
  obtain ⟨dir, -, last⟩ := follow_cons_eq_ok.mp h
  exact ⟨dir, (Except.ok.inj last).symm⟩

theorem follow_eq_ok_iff : fs.follow x parts = .ok y ↔
    y = parts.foldl stepTo x ∧ (∀ part ∈ parts, part.utf8ByteSize ≤ nameLimit) ∧
      ∀ n < parts.length, fs.item? ((parts.take n).foldl stepTo x) = some .directory := by
  induction parts generalizing x with
  | nil => simp [follow, eq_comm]
  | cons part parts ih =>
    rw [follow_cons_eq_ok, ih, forall_mem_cons, foldl_cons]
    constructor
    · rintro ⟨dir, short, rfl, others, dirs⟩
      refine ⟨rfl, ⟨short, others⟩, fun n inside => ?_⟩
      cases n with
      | zero => exact dir
      | succ n => exact dirs n (Nat.lt_of_succ_lt_succ inside)
    · rintro ⟨rfl, ⟨short, others⟩, dirs⟩
      exact ⟨dirs 0 (Nat.succ_pos _), short, rfl, others, fun n inside => dirs (n + 1) (Nat.succ_lt_succ inside)⟩

theorem follow_blanks (dir : fs.item? x = some .directory)
    (nothing : ∀ part ∈ blanks, part = "" ∨ part = ".") : fs.follow x blanks = .ok x := by
  induction blanks with
  | nil => rfl
  | cons part blanks ih =>
    obtain ⟨first, further⟩ := forall_mem_cons.mp nothing
    refine follow_cons_eq_ok.mpr ⟨dir, ?_, (stepTo_blank first x).symm ▸ ih further⟩
    obtain rfl | rfl := first <;> decide

theorem read_eq_ok_iff : fs.read path = .ok text ↔ ∃ x, fs.locate path = .ok x ∧ fs.item? x = some (.file text) := by
  unfold read lookup
  cases fs.locate path with
  | error e => simp
  | ok x =>
    cases item : fs.item? x with
    | none => simp [item]
    | some found =>
      cases found <;> simp [item]

theorem locate_eq_ok_iff :
    fs.locate path = .ok x ↔ FileProblem.ofPath? path = none ∧
      fs.follow (fs.start path) (Text.splitOn '/' path) = .ok x := by
  unfold locate
  cases FileProblem.ofPath? path <;> simp

theorem ofPath?_eq_none_iff :
    FileProblem.ofPath? path = none ↔ '\x00' ∉ path.toList ∧ path ≠ "" ∧ path.utf8ByteSize < pathLimit := by
  unfold FileProblem.ofPath? Text.contains
  split
  · next h => simp_all
  · split
    · next h => simp_all
    · split
      · next h => simp_all
      · next h => simp_all

theorem ofPath?_append : FileProblem.ofPath? (p ++ "/" ++ q) = none ↔
    '\x00' ∉ p.toList ∧ '\x00' ∉ q.toList ∧ p.utf8ByteSize + 1 + q.utf8ByteSize < pathLimit := by
  have slash : "/".utf8ByteSize = 1 := by decide
  have nonempty : p ++ "/" ++ q ≠ "" := fun empty => by simpa using congrArg String.toList empty
  rw [ofPath?_eq_none_iff, String.utf8ByteSize_append, String.utf8ByteSize_append, slash]
  simp [nonempty, and_assoc]

theorem ofPath?_clean (parts : cleanParts path ≠ []) (h : FileProblem.ofPath? path = none) :
    FileProblem.ofPath? (clean path) = none := by
  obtain ⟨noZero, -, short⟩ := ofPath?_eq_none_iff.mp h
  have fewer := clean_sublist parts
  refine ofPath?_eq_none_iff.mpr ⟨fun zero => noZero (fewer.subset zero), fun empty => ?_, ?_⟩
  · have none := cleanParts_clean path
    rw [empty] at none
    exact parts none.symm
  · exact Nat.lt_of_le_of_lt (Text.utf8ByteSize_le_of_sublist fewer) short

theorem directory_of_follow (nonempty : parts ≠ []) (h : fs.follow x parts = .ok y) : fs.item? x = some .directory := by
  obtain ⟨part, parts, rfl⟩ := exists_cons_of_ne_nil nonempty
  exact (follow_cons_eq_ok.mp h).1

theorem follow_cleanParts (h : fs.follow (fs.start path) (Text.splitOn '/' path) = .ok x) :
    fs.follow (fs.start path) (cleanParts path) = .ok x := by
  rw [follow_eq_foldlM] at h ⊢
  refine foldlM_cleaned _ _ ?_ ?_ ?_ h
  · intro y z part nothing step
    rw [(follow_step step).2, stepTo_blank nothing]
  · intro y z w name hname down back
    rw [(follow_step back).2, (follow_step down).2, stepTo_name hname]
    exact dropLast_concat
  · intro z absolute back
    have root : fs.start path = [] := if_pos absolute
    rw [(follow_step back).2, root]
    rfl

theorem read_clean (h : fs.read path = .ok text) : fs.read (clean path) = .ok text := by
  obtain ⟨x, located, item⟩ := read_eq_ok_iff.mp h
  obtain ⟨allowed, followed⟩ := locate_eq_ok_iff.mp located
  obtain ⟨sameStart, blanks, nothing, cut⟩ := clean_cases path
  have start : fs.start (clean path) = fs.start path :=
    congrArg (fun absolute : Bool => if absolute then [] else fs.workingDirectory) sameStart
  have dir := directory_of_follow (Text.splitOn_ne_nil '/' path) followed
  have cleaned := follow_cleanParts followed
  have parts : cleanParts path ≠ [] := by
    intro none
    rw [none] at cleaned
    cases cleaned
    rw [dir] at item
    cases item
  have skipped := follow_blanks dir nothing
  refine read_eq_ok_iff.mpr ⟨x, locate_eq_ok_iff.mpr ⟨ofPath?_clean parts allowed, ?_⟩, item⟩
  rw [start, cut, follow_eq_foldlM, foldlM_append, ← follow_eq_foldlM, skipped]
  exact (follow_eq_foldlM fs _ _).symm.trans cleaned

end FileSystem

end Impulse
