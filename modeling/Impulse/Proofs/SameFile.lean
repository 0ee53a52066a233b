import Impulse.Proofs.CleanPaths

/-!
# Files that are taken for the same

Imports are told apart by the digests of clean paths, so a file is left out if another one with the same clean path was
imported before. In memory a clean path has one text. On disk it has two: a path into the standard tree keeps its own
name, which may also be the path of a file outside of the tree. This file says what text every load gives, and when two
files that are taken for the same one have the same text.
-/

namespace Impulse

open Text.Path

variable {path first : String} {s : Source} {text importer : String}

/-- The files have the same path, or the same key, where the digest tells different clean paths apart. -/
def Source.SameFile (s s' : Source) : Prop :=
  s.path = s'.path ∨ s.key = s'.key ∧ (Text.digestText (clean s.path) = Text.digestText (clean s'.path) →
    clean s.path = clean s'.path)

theorem Source.SameFile.clean_eq (h : s.SameFile s') : clean s.path = clean s'.path := by
  obtain same | ⟨key, apart⟩ := h
  · rw [same]
  · exact apart key

namespace Text.Path

theorem clean_ne_empty (path : String) : clean path ≠ "" := by
  unfold clean
  dsimp only
  split
  · intro empty
    have := congrArg String.toList empty
    rw [String.toList_append] at this
    cases this
  · split
    · decide
    · next nonempty => exact nonempty

theorem directory_ne_empty (path : String) : directory path ≠ "" := by
  unfold directory
  split
  · decide
  · exact clean_ne_empty _

theorem join_ne_empty (nonempty : first ≠ "") (rest : List String) : join (first :: rest) ≠ "" := by
  rw [join, if_neg nonempty]
  exact clean_ne_empty _

theorem clean_join (nonempty : first ≠ "") (rest : List String) :
    clean (join (first :: rest)) = join (first :: rest) := by
  rw [join, if_neg nonempty, clean_clean]

end Text.Path

namespace Library

/-- The text that a library in memory has for a clean path. -/
def textOf? (files : List (String × String)) (path : String) : Option String :=
  ((files.find? (·.1 == path)).map (·.2)).or (Standard.find? path)

theorem clean_of_find? (h : Standard.find? path = some text) : clean path = path := by
  have clean : ∀ file ∈ Standard.files, Text.Path.clean file.1 = file.1 := by decide +kernel
  obtain ⟨file, found, -⟩ := Option.map_eq_some_iff.mp h
  have own : file.1 = path := by simpa using List.find?_some found
  rw [← own]
  exact clean file (List.mem_of_find?_eq_some found)

theorem loadMemory_text
    (h : loadMemory files importer path = .ok s) : textOf? files (clean s.path) = some s.text := by
  unfold loadMemory at h
  dsimp only at h
  split at h
  · next p text found =>
    cases h
    obtain ⟨p', mem, found⟩ := List.exists_of_findSome?_eq_some found
    obtain rfl : p = p' := by simpa using List.find?_some found
    have isClean : clean p = p := by
      obtain rfl | rfl : p = _ ∨ p = _ := by simpa using mem
      · exact clean_join (directory_ne_empty importer) _
      · exact clean_clean path
    show textOf? files (clean p) = some text
    rw [isClean, textOf?, found]
    rfl
  · next missing =>
    -- The standard files are searched last, so none of the other files has the path.
    split at h
    · next text found =>
      cases h
      split at found
      · have isClean := clean_of_find? found
        have here := List.findSome?_eq_none_iff.mp missing (clean path) (by simp)
        show textOf? files (clean path) = some text
        rw [textOf?, here, isClean, found]
        rfl
      · cases found
    · cases h

end Library

theorem FileSystem.read_congr {fs fs' : FileSystem} (items : fs'.items = fs.items)
    (start : fs'.workingDirectory = fs.workingDirectory) (path : String) : fs'.read path = fs.read path := by
  have item (x : Location) : fs'.item? x = fs.item? x := by
    unfold item?
    rw [items]
  have follow (x : Location) (parts : List String) : fs'.follow x parts = fs.follow x parts := by
    induction parts generalizing x with
    | nil => rfl
    | cons part parts ih =>
      rw [FileSystem.follow, FileSystem.follow, item]
      simp only [ih]
  simp only [read, lookup, locate, FileSystem.start, start, follow, item]

namespace Standard

theorem Caching.of_bind {f : α → Caching β}
    (h : (x >>= f) fs = .ok b fs') : ∃ a fs₁, x fs = .ok a fs₁ ∧ f a fs₁ = .ok b fs' := by
  change EStateM.bind x f fs = _ at h
  unfold EStateM.bind at h
  split at h
  · next a fs₁ first => exact ⟨a, fs₁, first, h⟩
  · cases h

theorem cacheTree_ne_empty (cache : String) : cacheTree cache ≠ "" := by
  have root : cacheRoot cache ≠ "" := by
    by_cases here : cache = ""
    · rw [here]
      decide
    · exact join_ne_empty here _
  exact join_ne_empty root _

theorem materialize_eq (h : materialize cache fs = .ok root fs') :
    root = cacheTree cache := by
  unfold materialize at h
  obtain ⟨_, _, -, asked⟩ := Caching.of_bind h
  obtain ⟨_, _, -, made⟩ := Caching.of_bind asked
  obtain ⟨_, _, -, locked⟩ := Caching.of_bind made
  obtain ⟨_, _, -, seen⟩ := Caching.of_bind locked
  dsimp only at seen
  split at seen
  · obtain ⟨_, _, -, installed⟩ := Caching.of_bind seen
    cases installed
    rfl
  · cases seen
    rfl

end Standard

namespace Disk

/-- Where the file with a clean path lies, in the standard tree or outside of it. -/
def placeOf (d : Disk) (standard : Bool) (path : String) : String :=
  if standard then join [d.stdRoot, path] else path

theorem relative_of_isStandard (h : isStandard path = true) : isAbsolute path = false := by
  obtain ⟨cs, chars⟩ := List.isPrefixOf_iff_prefix.mp h
  exact isAbsolute_of_toList chars.symm

theorem firstOf_eq {files : FileSystem} {candidates : List String}
    (h : firstOf files candidates = .ok (some (c, text))) : c ∈ candidates ∧ files.read c = .ok text := by
  induction candidates with
  | nil => cases h
  | cons c' candidates ih =>
    unfold firstOf at h
    split at h
    · next text' read =>
      cases h
      exact ⟨List.mem_cons_self, read⟩
    · exact ⟨List.mem_cons_of_mem c' (ih h).1, (ih h).2⟩
    · cases h

theorem withStandard_eq {d e : Disk} (h : d.withStandard = (.ok root, e)) :
    e.stdRoot = root ∧ root ≠ "" ∧ (d.stdRoot ≠ "" → e = d) := by
  unfold withStandard at h
  split at h
  · next known =>
    cases h
    exact ⟨rfl, known, fun _ => rfl⟩
  · next unknown =>
    split at h
    · cases h
    · next root' files made =>
      cases h
      refine ⟨rfl, ?_, fun known => absurd known unknown⟩
      rw [Standard.materialize_eq made]
      exact Standard.cacheTree_ne_empty _

theorem load_text {d e : Disk} (h : d.load importer path = (.ok s, e)) :
    e.files.read (e.placeOf (isStandard path) (clean s.path)) = .ok s.text ∧
      (isStandard path = true → e.stdRoot ≠ "") := by
  unfold load at h
  dsimp only at h
  split at h
  · next standard =>
    -- The file keeps the path that was asked for, and lies below the root of the tree.
    split at h
    · cases h
    · next root d' known =>
      obtain ⟨rfl, nonempty, -⟩ := withStandard_eq known
      split at h
      · cases h
      · cases h
      · next c text found =>
        cases h
        obtain ⟨only, read⟩ := firstOf_eq found
        rw [List.mem_singleton.mp only] at read
        refine ⟨?_, fun _ => nonempty⟩
        rw [placeOf, if_pos standard, clean_clean]
        show (d'.ask _).files.read (join [d'.stdRoot, clean path]) = .ok text
        rw [join_clean nonempty (relative_of_isStandard standard)]
        exact read
  · next outside =>
    -- The path of the file is the place where it was found, and cleaning a path leads to the same place.
    split at h
    · cases h
    · cases h
    · next c text found =>
      cases h
      refine ⟨?_, fun standard => absurd standard outside⟩
      rw [placeOf, if_neg outside]
      exact FileSystem.read_clean (firstOf_eq found).2

theorem read_ask (d : Disk) (candidates : List String) (path : String) :
    (d.ask candidates).files.read path = d.files.read path := by
  have kept (fs : FileSystem) : (candidates.foldl FileSystem.ask fs).items = fs.items ∧
      (candidates.foldl FileSystem.ask fs).workingDirectory = fs.workingDirectory := by
    induction candidates generalizing fs with
    | nil => exact ⟨rfl, rfl⟩
    | cons c candidates ih => exact ih (fs.ask c)
  exact FileSystem.read_congr (kept d.files).1 (kept d.files).2 path

theorem load_eq_ask {d : Disk} (known : d.stdRoot ≠ "") (importer path : String) :
    ∃ candidates, (d.load importer path).2 = d.ask candidates := by
  have root : d.withStandard = (.ok d.stdRoot, d) := if_pos known
  unfold load
  rw [root]
  dsimp only
  split
  · refine ⟨[join [d.stdRoot, path]], ?_⟩
    split <;> rfl
  · refine ⟨d.candidates importer path, ?_⟩
    split <;> rfl

/-- The disks that are left by loads. -/
inductive Reaches : Disk → Disk → Prop
  | refl (d : Disk) : Reaches d d
  | load {d e : Disk} (h : Reaches d e) (importer path : String) : Reaches d (e.load importer path).2

theorem Reaches.stdRoot_eq {d e : Disk} (h : d.Reaches e) (known : d.stdRoot ≠ "") : e.stdRoot = d.stdRoot := by
  induction h with
  | refl => rfl
  | load _ importer path ih =>
    obtain ⟨candidates, asked⟩ := load_eq_ask (ih ▸ known) importer path
    rw [asked]
    exact ih

theorem load_text_later {d e d' e' : Disk}
    (first : d.load importer path = (.ok s, e)) (between : e.Reaches d')
    (second : d'.load importer' path' = (result, e')) (fixed : ∀ p, e'.files.read p = e.files.read p) :
    e'.files.read (e'.placeOf (isStandard path) (clean s.path)) = .ok s.text := by
  obtain ⟨text, known⟩ := load_text first
  have place : e'.placeOf (isStandard path) (clean s.path) = e.placeOf (isStandard path) (clean s.path) := by
    unfold placeOf
    split
    · next standard =>
      have root := (between.load importer' path').stdRoot_eq (known standard)
      rw [second] at root
      rw [root]
    · rfl
  rw [fixed, place, text]

end Disk

/-- In memory, files that are taken for the same one have the same text. On disk they have the same text if both come
from the standard tree or both from outside of it; otherwise only if the file in the tree and the file with the same
path outside have the same text. -/
theorem load_sameFile (files : List (String × String)) (d d' : Disk) (importer path importer' path' : String)
    {s s' : Source} (same : s.SameFile s') :
    (Library.loadMemory files importer path = .ok s → Library.loadMemory files importer' path' = .ok s' →
      s.text = s'.text) ∧
    ∀ e e' : Disk, d.load importer path = (.ok s, e) → e.Reaches d' → d'.load importer' path' = (.ok s', e') →
      (∀ p, e'.files.read p = e.files.read p) → (s.text = s'.text ↔ (Disk.isStandard path = Disk.isStandard path' ∨
        e'.files.read (join [e'.stdRoot, clean s.path]) = e'.files.read (clean s.path))) := by
  constructor
  · intro first second
    have text := Library.loadMemory_text first
    rw [same.clean_eq, Library.loadMemory_text second] at text
    exact (Option.some.inj text).symm
  · intro e e' first between second fixed
    have own := Disk.load_text_later first between second fixed
    have other := (Disk.load_text second).1
    rw [← same.clean_eq] at other
    have texts : s.text = s'.text ↔ e'.files.read (e'.placeOf (Disk.isStandard path) (clean s.path))
        = e'.files.read (e'.placeOf (Disk.isStandard path') (clean s.path)) := by
      rw [own, other, Except.ok.injEq]
    rw [texts]
    cases Disk.isStandard path <;> cases Disk.isStandard path' <;> simp [Disk.placeOf, eq_comm]

/-- A disk with a file next to the program whose path is also one of the standard tree. -/
def twoTrees : Disk where
  files := .ofFiles ["home"] [("tree/base/io.imp", "theirs :: int = 2;"), ("base/io.imp", "mine :: int = 1;")]
  stdRoot := "tree"

/-- The path and the text of a file that was found. -/
def Source.found? (result : Except LoadProblem Source) : Option (String × String) :=
  result.toOption.map fun s => (s.path, s.text)

theorem Source.eq_of_found? (h : found? result = some (path, text)) : result = .ok ⟨path, text⟩ := by
  cases result with
  | error e => cases h
  | ok s =>
    cases h
    rfl

theorem load_sameFile_twoTrees :
    (∃ s s', Library.loadMemory [("lib/a.imp", "")] "main.imp" "lib/a.imp" = .ok s ∧
      Library.loadMemory [("lib/a.imp", "")] "lib/b.imp" "./a.imp" = .ok s' ∧ s.text = s'.text) ∧
    ∃ s s' e e', twoTrees.load "main.imp" "base/io.imp" = (.ok s, e) ∧
      e.load "base/io.imp" "base/../base/io.imp" = (.ok s', e') ∧ s.path = s'.path ∧ s.text = s'.text := by
  constructor
  · have first : Library.loadMemory [("lib/a.imp", "")] "main.imp" "lib/a.imp" = .ok ⟨"lib/a.imp", ""⟩ :=
      Source.eq_of_found? (by decide +kernel)
    have second : Library.loadMemory [("lib/a.imp", "")] "lib/b.imp" "./a.imp" = .ok ⟨"lib/a.imp", ""⟩ :=
      Source.eq_of_found? (by decide +kernel)
    have same : Source.SameFile ⟨"lib/a.imp", ""⟩ ⟨"lib/a.imp", ""⟩ := .inl rfl
    exact ⟨_, _, first, second, (load_sameFile _ twoTrees twoTrees _ _ _ _ same).1 first second⟩
  · generalize left : (twoTrees.load "main.imp" "base/io.imp").2 = e
    have first : twoTrees.load "main.imp" "base/io.imp" = (.ok ⟨"base/io.imp", "theirs :: int = 2;"⟩, e) :=
      Prod.ext (Source.eq_of_found? (by decide +kernel)) left
    have second : (e.load "base/io.imp" "base/../base/io.imp").1 = .ok ⟨"base/io.imp", "theirs :: int = 2;"⟩ := by
      rw [← left]
      exact Source.eq_of_found? (by decide +kernel)
    have fixed (p : String) : (e.load "base/io.imp" "base/../base/io.imp").2.files.read p = e.files.read p := by
      have known : e.stdRoot ≠ "" := by
        rw [← left]
        decide +kernel
      obtain ⟨candidates, asked⟩ := Disk.load_eq_ask known "base/io.imp" "base/../base/io.imp"
      rw [asked, Disk.read_ask]
    generalize left' : (e.load "base/io.imp" "base/../base/io.imp").2 = e' at fixed
    have same : Source.SameFile ⟨"base/io.imp", "theirs :: int = 2;"⟩ ⟨"base/io.imp", "theirs :: int = 2;"⟩ := .inl rfl
    have texts := (load_sameFile [] _ _ _ _ _ _ same).2 e e' first (.refl e) (Prod.ext second left') fixed
    exact ⟨_, _, _, _, first, Prod.ext second left', rfl, texts.mpr (.inl (by decide +kernel))⟩

/-- A file next to the program can have the path of a file of the standard tree and another text. It is left out if it
is imported behind that file. -/
theorem exists_sameFile_ne :
    (∃ s s' e e', twoTrees.load "main.imp" "base/io.imp" = (.ok s, e) ∧
      e.load "main.imp" "./base/io.imp" = (.ok s', e') ∧ s.path = s'.path ∧ s.text ≠ s'.text) ∧
    ((compile Settings.plain (.disk twoTrees) "main.imp"
      "@import \"base/io.imp\"; @import \"./base/io.imp\"; n: int = mine;").diagnostic?.map (·.message))
        = some "Unknown identifier 'mine'" := by
  refine ⟨?_, by decide +kernel⟩
  generalize left : (twoTrees.load "main.imp" "base/io.imp").2 = e
  have first : twoTrees.load "main.imp" "base/io.imp" = (.ok ⟨"base/io.imp", "theirs :: int = 2;"⟩, e) :=
    Prod.ext (Source.eq_of_found? (by decide +kernel)) left
  have second : (e.load "main.imp" "./base/io.imp").1 = .ok ⟨"base/io.imp", "mine :: int = 1;"⟩ := by
    rw [← left]
    exact Source.eq_of_found? (by decide +kernel)
  exact ⟨_, _, _, _, first, Prod.ext second rfl, rfl, by decide⟩

end Impulse
