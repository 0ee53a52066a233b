import Impulse.Proofs.Interruptions
import Impulse.Proofs.SameFile

/-!
# The tree in the cache

Where the items of the standard tree lie in a cache directory, what its marker tells, and what a call does first.
-/

namespace Impulse

open List Text.Path

namespace Text

namespace Path

theorem cleanParts_append (nonempty : p ≠ "") (names : ∀ part ∈ splitOn '/' q, IsName part) :
    cleanParts (p ++ "/" ++ q) = cleanParts p ++ splitOn '/' q := by
  have added (parts before : List String) (names : ∀ part ∈ parts, IsName part) :
      parts.foldl (addPart (isAbsolute p)) before = parts.reverse ++ before := by
    induction parts generalizing before with
    | nil => rfl
    | cons part parts ih =>
      obtain ⟨first, others⟩ := forall_mem_cons.mp names
      rw [foldl_cons, addPart_name first, ih _ others]
      simp
  unfold cleanParts
  rw [isAbsolute_append nonempty, splitOn_append, foldl_append, added _ _ names]
  simp

namespace IsStem

theorem ne_empty (h : IsStem p) : p ≠ "" :=
  h.isClean ▸ clean_ne_empty p

theorem join (h : IsStem p) (names : ∀ part ∈ splitOn '/' q, IsName part) : IsStem (join [p, q]) := by
  refine ⟨clean_join h.ne_empty _, ?_⟩
  rw [join_eq h.ne_empty, cleanParts_clean, cleanParts_append h.ne_empty names]
  exact append_ne_nil_of_left_ne_nil h.parts _

theorem join_names (h : IsStem p) (names : ∀ part ∈ splitOn '/' q, IsName part) : Path.join [p, q] = p ++ "/" ++ q := by
  have start := isAbsolute_append h.ne_empty q
  have behind := intercalate_append h.parts (splitOn_ne_nil '/' q)
  rw [intercalate_splitOn] at behind
  have some : cleanParts (p ++ "/" ++ q) ≠ [] := by
    rw [cleanParts_append h.ne_empty names]
    exact append_ne_nil_of_left_ne_nil h.parts _
  rw [join_eq h.ne_empty]
  cases absolute : isAbsolute p with
  | true =>
    rw [clean_of_absolute (start.trans absolute), cleanParts_append h.ne_empty names, behind]
    nth_rewrite 2 [← h.isClean]
    rw [clean_of_absolute absolute]
    simp only [String.append_assoc]
  | false =>
    rw [clean_of_relative (start.trans absolute) some, cleanParts_append h.ne_empty names, behind]
    nth_rewrite 2 [← h.isClean]
    rw [clean_of_relative absolute h.parts]

end IsStem

end Path

def bytes (s : String) : List UInt8 :=
  s.toByteArray.data.toList

theorem bytes_append (s t : String) : bytes (s ++ t) = bytes s ++ bytes t := by
  simp [bytes]

theorem bytes_join (parts : List String) : bytes (String.join parts) = parts.flatMap bytes := by
  induction parts with
  | nil => rfl
  | cons part parts ih => rw [String.join_cons, bytes_append, ih, flatMap_cons]

/-- The number that the first `count` bytes make. -/
def Digest.front : Nat → List UInt8 → UInt64
  | 0, _ => 0
  | count + 1, bytes => (bytes.headD 0).toUInt64 ||| (front count bytes.tail <<< 8)

theorem Digest.word_eq (bytes : Array UInt8) (start count : Nat) :
    word bytes start count = front count (bytes.toList.drop start) := by
  induction count generalizing start with
  | zero => rfl
  | succ count ih =>
    rw [word, front, ih, tail_drop, headD_eq_head?_getD, List.head?_drop]
    simp

end Text

namespace FileSystem

variable {fs : FileSystem}

theorem literalLocation_join (h : IsStem p) (fs : FileSystem) (names : ∀ part ∈ Text.splitOn '/' q, IsName part) :
    fs.literalLocation (join [p, q]) = fs.literalLocation p ++ Text.splitOn '/' q := by
  rw [h.join_names names, literalLocation_append h.ne_empty fs names]

theorem literalLocation_item (h : IsStem p) (fs : FileSystem) (name : IsItemName q) :
    fs.literalLocation (join [p, q]) = fs.literalLocation p ++ [q] := by
  rw [literalLocation_join h fs name.names, name.single]

theorem Follows.join (h : IsStem p) (follows : fs.Follows p)
    (dir : fs.item? (fs.literalLocation p) = some .directory) (name : IsItemName q) : fs.Follows (join [p, q]) := by
  rw [h.join_names name.names]
  exact follows.append h.ne_empty dir name

end FileSystem

namespace Standard

open FileSystem

open Text Text.Digest in
theorem digestName_eq : digestName = "eb6197a1072321d0" := by
  have lines (lines : List String) :
      bytes (ofLines lines) = lines.flatMap fun line => bytes line ++ bytes "\n" := by
    simp only [ofLines, bytes_join, flatMap_map, bytes_append]
  have whole : (String.join (files.map fun file => "std/" ++ file.1 ++ file.2)).toUTF8.data =
      (files.flatMap fun file => bytes "std/" ++ bytes file.1 ++ bytes file.2).toArray := by
    rw [← Array.toList_inj, String.toUTF8_eq_toByteArray, ← bytes, bytes_join, flatMap_map]
    simp only [bytes_append]
  rw [digestName, digestText, whole, digest]
  simp only [Lanes.stripe, eight, four, one, word_eq, size_toArray, files, builtin, dynamic, io,
    flatMap_cons, flatMap_nil, lines]
  decide +kernel

theorem digestName_isItemName : IsItemName digestName := by
  rw [digestName_eq]
  exact ⟨⟨by decide, by decide, by decide⟩, by decide +kernel, by decide⟩

/-- The whole tree is there, and its files can be named. -/
structure Installed (cache : String) (fs : FileSystem) : Prop where
  tree : fs.item? (fs.literalLocation (cacheTree cache)) = some .directory
  base : fs.item? (fs.literalLocation (join [cacheTree cache, lead])) = some .directory
  file : ∀ file ∈ files, FileProblem.ofPath? (join [cacheTree cache, file.1]) = none ∧
    fs.item? (fs.literalLocation (join [cacheTree cache, file.1])) = some (.file file.2)

/-- There is a marker, and its text is the digest. -/
def Marked (cache : String) (fs : FileSystem) : Prop :=
  fs.item? (fs.literalLocation (markerPath cache)) = some (.file digestName)

/-- If there is a marker, the whole tree is there. -/
def Sound (cache : String) (fs : FileSystem) : Prop :=
  Marked cache fs → Installed cache fs

theorem isStem_cacheRoot (cache : String) : IsStem (cacheRoot cache) := by
  by_cases here : cache = ""
  · rw [here]
    exact ⟨by decide +kernel, by decide +kernel⟩
  · have name : ∀ part ∈ Text.splitOn '/' "std", IsName part := by
      intro part h
      obtain rfl : part = "std" := mem_singleton.mp h
      exact ⟨by decide, by decide, by decide⟩
    refine ⟨clean_join here _, ?_⟩
    rw [cacheRoot, join_eq here, cleanParts_clean, cleanParts_append here name]
    exact append_ne_nil_of_right_ne_nil _ (Text.splitOn_ne_nil _ _)

theorem isItemName_lock : IsItemName ".lock" :=
  ⟨⟨by decide, by decide, by decide⟩, rfl, by decide⟩

theorem isItemName_hash : IsItemName ".hash" :=
  ⟨⟨by decide, by decide, by decide⟩, rfl, by decide⟩

theorem isItemName_base : IsItemName "base" :=
  ⟨⟨by decide, by decide, by decide⟩, rfl, by decide⟩

theorem isStem_cacheTree (cache : String) : IsStem (cacheTree cache) :=
  (isStem_cacheRoot cache).join digestName_isItemName.names

theorem markerPath_eq (cache : String) : markerPath cache = cacheTree cache ++ "/" ++ ".hash" :=
  (isStem_cacheTree cache).join_names isItemName_hash.names

theorem join_lead (cache : String) : join [cacheTree cache, lead] = join [cacheTree cache, "base"] := by
  have short : clean lead = "base" := by decide +kernel
  have relative : isAbsolute lead = false := by decide
  rw [← join_clean (cacheTree_ne_empty cache) relative, short]

theorem isStem_base (cache : String) : IsStem (join [cacheTree cache, lead]) :=
  join_lead cache ▸ (isStem_cacheTree cache).join isItemName_base.names

theorem files_names : ∀ file ∈ files, ∃ name, file.1 = "base" ++ "/" ++ name ∧ IsItemName name := by
  simp only [files, forall_mem_cons]
  refine ⟨⟨"builtin.imp", by decide, ?_⟩, ⟨"dynamic.h", by decide, ?_⟩, ⟨"io.imp", by decide, ?_⟩,
    forall_mem_nil _⟩
  all_goals exact ⟨⟨by decide, by decide, by decide⟩, by decide +kernel, by decide⟩

theorem place_tree (fs : FileSystem) (cache : String) :
    fs.literalLocation (cacheTree cache) = fs.literalLocation (cacheRoot cache) ++ [digestName] :=
  literalLocation_item (isStem_cacheRoot cache) fs digestName_isItemName

theorem place_lock (fs : FileSystem) (cache : String) :
    fs.literalLocation (lockPath cache) = fs.literalLocation (cacheRoot cache) ++ [".lock"] :=
  literalLocation_item (isStem_cacheRoot cache) fs isItemName_lock

theorem place_marker (fs : FileSystem) (cache : String) :
    fs.literalLocation (markerPath cache) = fs.literalLocation (cacheTree cache) ++ [".hash"] :=
  literalLocation_item (isStem_cacheTree cache) fs isItemName_hash

theorem place_base (fs : FileSystem) (cache : String) :
    fs.literalLocation (join [cacheTree cache, lead]) = fs.literalLocation (cacheTree cache) ++ ["base"] := by
  rw [join_lead]
  exact literalLocation_item (isStem_cacheTree cache) fs isItemName_base

theorem splitOn_file (h : file ∈ files) :
    ∃ name, Text.splitOn '/' file.1 = ["base", name] ∧ IsItemName name ∧ file.1 = "base" ++ "/" ++ name := by
  obtain ⟨name, eq, isItemName⟩ := files_names file h
  refine ⟨name, ?_, isItemName, eq⟩
  rw [eq, Text.splitOn_append, isItemName_base.single, isItemName.single]
  rfl

theorem names_file (h : file ∈ files) : ∀ part ∈ Text.splitOn '/' file.1, IsName part := by
  obtain ⟨name, cut, isItemName, -⟩ := splitOn_file h
  rw [cut]
  simp [isItemName.isName, isItemName_base.isName]

theorem join_file (cache : String) (h : file ∈ files) :
    join [cacheTree cache, file.1] = cacheTree cache ++ "/" ++ file.1 :=
  (isStem_cacheTree cache).join_names (names_file h)

theorem place_file (fs : FileSystem) (cache : String) (h : file ∈ files) :
    fs.literalLocation (join [cacheTree cache, file.1])
      = fs.literalLocation (cacheTree cache) ++ Text.splitOn '/' file.1 :=
  literalLocation_join (isStem_cacheTree cache) fs (names_file h)

variable {fs fs' : FileSystem}

theorem Installed.congr (h : Installed cache fs) (start : fs'.workingDirectory = fs.workingDirectory)
    (same : ∀ parts, parts ≠ [".hash"] → fs'.item? (fs.literalLocation (cacheTree cache) ++ parts)
      = fs.item? (fs.literalLocation (cacheTree cache) ++ parts)) : Installed cache fs' := by
  have place := literalLocation_congr start
  refine ⟨?_, ?_, fun file mem => ⟨(h.file file mem).1, ?_⟩⟩
  · have tree := same [] (by decide)
    rw [append_nil] at tree
    rw [place, tree]
    exact h.tree
  · have base := h.base
    rw [place_base] at base
    rw [place, place_base, same _ (by decide)]
    exact base
  · have text := (h.file file mem).2
    obtain ⟨name, cut, -⟩ := splitOn_file mem
    rw [place_file fs cache mem, cut] at text
    rw [place, place_file fs cache mem, cut, same _ (by simp)]
    exact text

theorem marked_congr (items : fs'.items = fs.items) (start : fs'.workingDirectory = fs.workingDirectory) :
    Marked cache fs' ↔ Marked cache fs := by
  unfold Marked
  rw [literalLocation_congr start]
  unfold item?
  rw [items]

theorem Sound.congr (h : Sound cache fs) (items : fs'.items = fs.items)
    (start : fs'.workingDirectory = fs.workingDirectory) : Sound cache fs' := by
  intro marked
  refine (h ((marked_congr items start).mp marked)).congr start fun _ _ => ?_
  unfold item?
  rw [items]

theorem follows_file (follows : fs.Follows (cacheTree cache))
    (tree : fs.item? (fs.literalLocation (cacheTree cache)) = some .directory)
    (base : fs.item? (fs.literalLocation (join [cacheTree cache, lead])) = some .directory)
    (mem : file ∈ files) : fs.Follows (join [cacheTree cache, file.1]) := by
  obtain ⟨name, -, isItemName, eq⟩ := splitOn_file mem
  rw [join_lead] at base
  have toFile := (follows.join (isStem_cacheTree cache) tree isItemName_base).join
    ((isStem_cacheTree cache).join isItemName_base.names) base isItemName
  have place := ((isStem_cacheTree cache).join isItemName_base.names).join_names isItemName.names
  rw [place, (isStem_cacheTree cache).join_names isItemName_base.names] at toFile
  rw [join_file cache mem, eq]
  simpa only [String.append_assoc] using toFile

theorem Installed.read (h : Installed cache fs) (follows : fs.Follows (cacheTree cache)) :
    ∀ file ∈ files, fs.read (join [cacheTree cache, file.1]) = .ok file.2 := by
  intro file mem
  obtain ⟨allowed, item⟩ := h.file file mem
  exact read_eq_ok.mpr ⟨allowed, follows_file follows h.tree h.base mem, item⟩

theorem isComplete_iff : isComplete fs cache = true ↔
    FileProblem.ofPath? (markerPath cache) = none ∧ fs.Follows (markerPath cache) ∧ Marked cache fs := by
  have read : isComplete fs cache = true ↔ fs.read (markerPath cache) = .ok digestName := by
    unfold isComplete
    cases fs.read (markerPath cache) <;> simp
  rw [read, read_eq_ok]
  rfl

theorem isComplete_of_marked (marked : Marked cache fs) (installed : Installed cache fs)
    (follows : fs.Follows (cacheRoot cache)) (dir : fs.item? (fs.literalLocation (cacheRoot cache)) = some .directory) :
    isComplete fs cache = true := by
  have toTree := follows.join (isStem_cacheRoot cache) dir digestName_isItemName
  refine isComplete_iff.mpr ⟨?_, toTree.join (isStem_cacheTree cache) installed.tree isItemName_hash, marked⟩
  -- The path of the marker is shorter than those of the files.
  obtain ⟨file, mem⟩ : ∃ file, file ∈ files := ⟨_, mem_cons_self⟩
  obtain ⟨allowed, -⟩ := installed.file file mem
  have long : ∀ file ∈ files, ".hash".utf8ByteSize ≤ file.1.utf8ByteSize := by decide
  rw [join_file cache mem] at allowed
  obtain ⟨noZero, -, short⟩ := ofPath?_append.mp allowed
  rw [markerPath_eq]
  exact ofPath?_append.mpr ⟨noZero, by decide, Nat.lt_of_le_of_lt (Nat.add_le_add_left (long file mem) _) short⟩

def looked (cache : String) (fs : FileSystem) : FileSystem :=
  (fs.ask (lockPath cache)).ask (markerPath cache)

def materializeLooked (cache : String) : Caching String := do
  makeDirectories .noDirectory (cacheRoot cache)
  lock (lockPath cache)
  if !isComplete (← get) cache then install cache
  return cacheTree cache

theorem materialize_run (cache : String) (fs : FileSystem) :
    materialize cache fs = materializeLooked cache (looked cache fs) := by
  show EStateM.bind (modify (looked cache)) (fun _ => materializeLooked cache) fs = _
  unfold EStateM.bind
  rfl

theorem lock_of_ok (found : fs.read path = .ok text) : lock path fs = .ok () fs := by
  unfold lock
  rw [Caching.run_bind (show (get : Caching FileSystem) fs = .ok fs fs from rfl), found]
  rfl

theorem lock_of_error (found : fs.read path = .error e) :
    lock path fs = writeFile .noLock path "" fs := by
  unfold lock
  rw [Caching.run_bind (show (get : Caching FileSystem) fs = .ok fs fs from rfl), found]

end Standard

end Impulse
