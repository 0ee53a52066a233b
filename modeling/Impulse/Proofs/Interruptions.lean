import Impulse.Proofs.CleanPaths

/-!
# Computations on files that are cut off

A computation on the files of a cache changes them by effects, one after the other. It can be cut off between two
effects, or in one of them: then a part of a text is written, or a part of a tree is removed. A condition that is to
hold after every interruption is carried through a computation like the condition that holds at its end: step by step.
-/

namespace Impulse

open List

variable {item : FileItem} {parts : List String}

/-- What can be left of an effect that is cut off: the beginning of the text of a file, or a tree of which any part is
removed. A directory is made in one step. -/
inductive Effect.Torn : Effect → List (Location × FileItem) → List (Location × FileItem) → Prop
  | write {location : Location} {text part : String} (items : List (Location × FileItem))
      (begins : part.toList <+: text.toList) :
      Torn (.write location text) items (FileSystem.applyEffect (.write location part) items)
  | removeTree {location : Location} (items : List (Location × FileItem)) (kept : Location → Bool) :
      Torn (.removeTree location) items (items.filter fun e => !location.isPrefixOf e.1 || kept e.1)

namespace FileSystem

def performAll (fs : FileSystem) (es : List Effect) : FileSystem :=
  es.foldl perform fs

/-- What can be left of a file system if effects on it are cut off, between two of them or in one of them. -/
inductive CutOff : FileSystem → List Effect → FileSystem → Prop
  | between (fs : FileSystem) (es : List Effect) : CutOff fs es fs
  | inside {fs : FileSystem} {e : Effect} {items : List (Location × FileItem)} (torn : e.Torn fs.items items)
      (es : List Effect) : CutOff fs (e :: es) { fs with items := items }
  | behind {fs fs' : FileSystem} {e : Effect} {es : List Effect} (h : CutOff (fs.perform e) es fs') :
      CutOff fs (e :: es) fs'

open Text.Path

variable {fs fs' : FileSystem}

theorem effects_performAll (fs : FileSystem) (es : List Effect) : (fs.performAll es).effects = fs.effects ++ es := by
  induction es generalizing fs with
  | nil => exact (append_nil _).symm
  | cons e es ih =>
    show ((fs.perform e).performAll es).effects = _
    rw [ih]
    simp [perform]

theorem CutOff.append (h : CutOff fs (es ++ es') fs') :
    CutOff fs es fs' ∨ CutOff (fs.performAll es) es' fs' := by
  induction es generalizing fs with
  | nil => exact .inr h
  | cons e es ih =>
    cases h with
    | between => exact .inl (.between _ _)
    | inside torn => exact .inl (.inside torn es)
    | behind h => exact (ih h).imp_left .behind

theorem CutOff.all (fs : FileSystem) (es : List Effect) : CutOff fs es (fs.performAll es) := by
  induction es generalizing fs with
  | nil => exact .between fs []
  | cons e es ih => exact .behind (ih (fs.perform e))

theorem CutOff.ask (h : CutOff fs es fs') (asked : List Location) :
    CutOff { fs with asked := asked } es { fs' with asked := asked } := by
  induction h with
  | between fs es => exact .between _ es
  | @inside fs e items torn es =>
    have torn' : e.Torn { fs with asked := asked }.items items := torn
    exact .inside torn' es
  | behind _ ih => exact .behind ih

theorem item?_root (fs : FileSystem) : fs.item? [] = some .directory :=
  if_pos rfl

theorem item?_setItem (fs : FileSystem) (x y : Location) (item : FileItem) :
    item? { fs with items := setItem fs.items x item } y = if y = x ∧ y ≠ [] then some item else fs.item? y := by
  unfold item? setItem
  by_cases root : y = []
  · simp [root]
  · have others : ((fs.items.filter (·.1 != x)).find? (·.1 == y)) =
        if y = x then none else fs.items.find? (·.1 == y) := by
      rw [List.find?_filter]
      split
      · next same =>
        refine List.find?_eq_none.mpr fun e _ => ?_
        simp [same]
      · next other =>
        congr 1
        funext e
        by_cases here : e.1 = y <;> simp [here, other]
    rw [if_neg root, List.find?_append, others]
    by_cases same : y = x
    · simp [same, same ▸ root]
    · simp [root, same, Ne.symm same]

theorem item?_filter (fs : FileSystem) (kept : Location → Bool) (y : Location) :
    item? { fs with items := fs.items.filter fun e => kept e.1 } y
      = if y = [] ∨ kept y = true then fs.item? y else none := by
  unfold item?
  by_cases root : y = []
  · simp [root]
  · simp only [root, if_false, false_or]
    rw [List.find?_filter]
    split
    · next stays =>
      congr 2
      funext e
      by_cases here : e.1 = y <;> simp [here, stays]
    · next gone =>
      rw [List.find?_eq_none.mpr]
      · rfl
      · intro e _
        by_cases here : e.1 = y <;> simp [here, gone]

theorem foldl_stepTo (name : ∀ part ∈ names, IsName part) (x : Location) :
    names.foldl stepTo x = x ++ names := by
  induction names generalizing x with
  | nil => exact (append_nil x).symm
  | cons part names ih =>
    obtain ⟨first, others⟩ := forall_mem_cons.mp name
    rw [foldl_cons, stepTo_name first, ih others, append_assoc]
    rfl

theorem literalLocation_eq (fs : FileSystem) (path : String) :
    fs.literalLocation path = (Text.splitOn '/' path).foldl stepTo (fs.start path) :=
  rfl

theorem start_congr (start : fs'.workingDirectory = fs.workingDirectory) (path : String) :
    fs'.start path = fs.start path := by
  unfold FileSystem.start
  rw [start]

theorem literalLocation_congr (start : fs'.workingDirectory = fs.workingDirectory) (path : String) :
    fs'.literalLocation path = fs.literalLocation path :=
  congrArg ((Text.splitOn '/' path).foldl stepTo) (start_congr start path)

theorem follow_append (fs : FileSystem) (x : Location) (parts parts' : List String) :
    fs.follow x (parts ++ parts') = fs.follow x parts >>= fun y => fs.follow y parts' := by
  rw [follow_eq_foldlM, foldlM_append, ← follow_eq_foldlM]
  exact congrArg _ (funext fun y => (follow_eq_foldlM fs y parts').symm)

theorem follow_mono (h : fs.follow x parts = .ok y)
    (stays : ∀ n, fs.item? ((parts.take n).foldl stepTo x) = some .directory →
      fs'.item? ((parts.take n).foldl stepTo x) = some .directory) : fs'.follow x parts = .ok y := by
  obtain ⟨place, short, dirs⟩ := follow_eq_ok_iff.mp h
  exact follow_eq_ok_iff.mpr ⟨place, short, fun n inside => stays n (dirs n inside)⟩

/-- Every directory on the way to a path is there. -/
def Follows (fs : FileSystem) (path : String) : Prop :=
  fs.follow (fs.start path) (Text.splitOn '/' path) = .ok (fs.literalLocation path)

theorem Follows.mono (h : fs.Follows path) (start : fs'.workingDirectory = fs.workingDirectory)
    (stays : ∀ x, fs.item? x = some .directory → fs'.item? x = some .directory) : fs'.Follows path := by
  unfold Follows
  rw [start_congr start, literalLocation_congr start]
  exact follow_mono h fun _ => stays _

theorem locate_eq_ok :
    fs.locate path = .ok x ↔ FileProblem.ofPath? path = none ∧ fs.Follows path ∧ x = fs.literalLocation path := by
  rw [locate_eq_ok_iff]
  constructor
  · rintro ⟨allowed, followed⟩
    have place : x = fs.literalLocation path := (follow_eq_ok_iff.mp followed).1
    exact ⟨allowed, followed.trans (congrArg Except.ok place), place⟩
  · rintro ⟨allowed, follows, rfl⟩
    exact ⟨allowed, follows⟩

theorem read_eq_ok :
    fs.read path = .ok text ↔ FileProblem.ofPath? path = none ∧ fs.Follows path ∧
      fs.item? (fs.literalLocation path) = some (.file text) := by
  rw [read_eq_ok_iff]
  constructor
  · rintro ⟨x, located, item⟩
    obtain ⟨allowed, follows, rfl⟩ := locate_eq_ok.mp located
    exact ⟨allowed, follows, item⟩
  · rintro ⟨allowed, follows, item⟩
    exact ⟨_, locate_eq_ok.mpr ⟨allowed, follows, rfl⟩, item⟩

/-- A single part of a path that a directory can have an item for. -/
structure IsItemName (name : String) : Prop where
  isName : IsName name
  single : Text.splitOn '/' name = [name]
  short : name.utf8ByteSize ≤ nameLimit

theorem IsItemName.names (h : IsItemName name) : ∀ part ∈ Text.splitOn '/' name, IsName part := by
  rw [h.single]
  exact fun part here => mem_singleton.mp here ▸ h.isName

section Append

variable (nonempty : p ≠ "")

include nonempty

theorem start_append (fs : FileSystem) (q : String) : fs.start (p ++ "/" ++ q) = fs.start p :=
  congrArg (fun absolute : Bool => if absolute then [] else fs.workingDirectory)
    (isAbsolute_append nonempty q)

theorem literalLocation_append (fs : FileSystem) (names : ∀ part ∈ Text.splitOn '/' q, IsName part) :
    fs.literalLocation (p ++ "/" ++ q) = fs.literalLocation p ++ Text.splitOn '/' q := by
  rw [literalLocation_eq, start_append nonempty, Text.splitOn_append, foldl_append, foldl_stepTo names]
  rfl

theorem Follows.of_append (h : fs.Follows (p ++ "/" ++ q)) :
    fs.Follows p ∧ fs.item? (fs.literalLocation p) = some .directory := by
  unfold Follows at h
  rw [start_append nonempty, Text.splitOn_append, follow_append] at h
  cases first : fs.follow (fs.start p) (Text.splitOn '/' p) with
  | error e =>
    rw [first] at h
    cases h
  | ok y =>
    rw [first] at h
    obtain rfl : y = fs.literalLocation p := (follow_eq_ok_iff.mp first).1
    exact ⟨first, directory_of_follow (Text.splitOn_ne_nil '/' q) h⟩

theorem Follows.append (h : fs.Follows p) (dir : fs.item? (fs.literalLocation p) = some .directory)
    (name : IsItemName q) : fs.Follows (p ++ "/" ++ q) := by
  unfold Follows
  rw [literalLocation_append nonempty fs name.names, start_append nonempty, Text.splitOn_append, follow_append, h,
    name.single]
  exact follow_cons_eq_ok.mpr ⟨dir, name.short, congrArg _ (stepTo_name name.isName _)⟩

end Append

/-- Directories are made where nothing was. -/
structure Grown (fs fs' : FileSystem) : Prop where
  start : fs'.workingDirectory = fs.workingDirectory
  item : ∀ x, fs'.item? x = fs.item? x ∨ fs.item? x = none ∧ fs'.item? x = some .directory

theorem Grown.refl (fs : FileSystem) : fs.Grown fs :=
  ⟨rfl, fun _ => .inl rfl⟩

theorem Grown.trans (h : fs.Grown fs') (h' : fs'.Grown fs'') : fs.Grown fs'' := by
  refine ⟨h'.start.trans h.start, fun x => ?_⟩
  rcases h'.item x with same | ⟨free, made⟩
  · rw [same]
    exact h.item x
  · rcases h.item x with same | ⟨-, made'⟩
    · exact .inr ⟨same ▸ free, made⟩
    · rw [free] at made'
      cases made'

theorem Grown.literalLocation (h : fs.Grown fs') (path : String) : fs'.literalLocation path = fs.literalLocation path :=
  literalLocation_congr h.start path

theorem Grown.item_eq (h : fs.Grown fs') (there : fs.item? x = some item) : fs'.item? x = some item := by
  rcases h.item x with same | ⟨free, -⟩
  · exact same.trans there
  · rw [there] at free
    cases free

theorem Grown.follows (h : fs.Grown fs') (follows : fs.Follows path) : fs'.Follows path :=
  follows.mono h.start fun _ => h.item_eq

theorem item?_makeDirectory (fs : FileSystem) (x y : Location) :
    (fs.perform (.makeDirectory x)).item? y = if y = x ∧ y ≠ [] then some .directory else fs.item? y :=
  item?_setItem fs x y .directory

theorem item?_write (fs : FileSystem) (x y : Location) (text : String) :
    (fs.perform (.write x text)).item? y = if y = x ∧ y ≠ [] then some (.file text) else fs.item? y :=
  item?_setItem fs x y (.file text)

theorem directory_write (free : fs.item? x ≠ some .directory) (text : String) (dir : fs.item? y = some .directory) :
    (fs.perform (.write x text)).item? y = some .directory := by
  have other : ¬(y = x ∧ y ≠ []) := fun same => free (same.1 ▸ dir)
  rw [item?_write, if_neg other, dir]

theorem Grown.makeDirectory (free : fs.item? x = none) : fs.Grown (fs.perform (.makeDirectory x)) := by
  refine ⟨rfl, fun y => ?_⟩
  rw [item?_makeDirectory]
  split
  · next here =>
    rw [here.1]
    exact .inr ⟨free, rfl⟩
  · exact .inl rfl

theorem ensureDirectory_cases (h : fs.ensureDirectory path = .ok fs') :
    fs' = fs ∧ fs.lookup path = .ok .directory ∨
      ∃ x, fs.follow (fs.start path) ((Text.splitOn '/' path).reverse.dropWhile (· == "")).reverse = .ok x ∧
        fs.item? x = none ∧ fs' = fs.perform (.makeDirectory x) := by
  unfold ensureDirectory at h
  split at h
  · next found =>
    cases h
    exact .inl ⟨rfl, found⟩
  · cases h
  · unfold FileSystem.makeDirectory at h
    dsimp only at h
    split at h
    · cases h
    · split at h
      · cases h
      · next x followed =>
        split at h
        · cases h
        · next free =>
          cases h
          exact .inr ⟨x, followed, by simpa using free, rfl⟩

theorem lookup_eq_ok : fs.lookup path = .ok item ↔ ∃ x, fs.locate path = .ok x ∧ fs.item? x = some item := by
  unfold lookup
  cases fs.locate path with
  | error e => simp
  | ok x => cases found : fs.item? x <;> simp [found]

theorem dropWhile_blank (last : parts.getLast? ≠ some "") : (parts.reverse.dropWhile (· == "")).reverse = parts := by
  cases cut : parts.reverse with
  | nil => exact (reverse_eq_nil_iff.mp cut).symm
  | cons part rest =>
    have ends : parts.getLast? = some part := by
      rw [List.getLast?_eq_head?_reverse, cut]
      rfl
    rw [dropWhile_cons_of_neg (by simpa [ends] using last), ← cut, reverse_reverse]

theorem directory_of_ensureDirectory (last : (Text.splitOn '/' path).getLast? ≠ some "")
    (h : fs.ensureDirectory path = .ok fs') :
    fs'.Follows path ∧ fs'.item? (fs'.literalLocation path) = some .directory := by
  rcases ensureDirectory_cases h with ⟨rfl, found⟩ | ⟨x, followed, free, rfl⟩
  · obtain ⟨x, located, dir⟩ := lookup_eq_ok.mp found
    obtain ⟨-, follows, rfl⟩ := locate_eq_ok.mp located
    exact ⟨follows, dir⟩
  · rw [dropWhile_blank last] at followed
    obtain rfl : x = fs.literalLocation path := (follow_eq_ok_iff.mp followed).1
    have grown := Grown.makeDirectory free
    refine ⟨grown.follows followed, ?_⟩
    rw [grown.literalLocation, item?_makeDirectory, if_pos]
    refine ⟨rfl, fun root => ?_⟩
    rw [root, item?_root] at free
    cases free

theorem Follows.write (h : fs.Follows path) (free : fs.item? x ≠ some .directory)
    (text : String) : (fs.perform (.write x text)).Follows path :=
  h.mono rfl fun _ => directory_write free text

/-- Whatever is on a file system lies in a directory, and paths start in one. -/
structure IsTree (fs : FileSystem) : Prop where
  above : ∀ x item, fs.item? x = some item → fs.item? x.dropLast = some .directory
  start : fs.item? fs.workingDirectory = some .directory

theorem IsTree.item?_of_append (tree : fs.IsTree)
    (there : fs.item? (x ++ part :: parts) = some item) : fs.item? x = some .directory := by
  induction parts using List.reverseRecOn generalizing item with
  | nil => simpa using tree.above _ _ there
  | append_singleton parts last ih =>
    have above := tree.above _ _ there
    rw [← cons_append, ← append_assoc, dropLast_concat] at above
    exact ih above

theorem follow_of_isTree (tree : fs.IsTree) (dir : fs.item? x = some .directory)
    (up : ∀ part ∈ ups, part = "..") (name : ∀ part ∈ names, IsName part)
    (short : ∀ part ∈ names, part.utf8ByteSize ≤ nameLimit)
    (there : fs.item? ((ups ++ names).foldl stepTo x) = some item) :
    fs.follow x (ups ++ names) = .ok ((ups ++ names).foldl stepTo x) := by
  induction ups generalizing x with
  | cons part ups ih =>
    obtain ⟨rfl, further⟩ := forall_mem_cons.mp up
    have above : fs.item? x.dropLast = some .directory := tree.above _ _ dir
    exact follow_cons_eq_ok.mpr ⟨dir, by decide, ih above further there⟩
  | nil =>
    rw [nil_append, foldl_stepTo name] at there
    rw [nil_append, foldl_stepTo name]
    induction names generalizing x with
    | nil => rw [follow, append_nil]
    | cons part names ih =>
      obtain ⟨first, others⟩ := forall_mem_cons.mp name
      obtain ⟨fits, short⟩ := forall_mem_cons.mp short
      rw [follow_cons_eq_ok, stepTo_name first]
      refine ⟨dir, fits, ?_⟩
      have below : x ++ part :: names = x ++ [part] ++ names := by simp
      rw [below] at there ⊢
      cases names with
      | nil => rw [append_nil]; rfl
      | cons next names => exact ih others short (tree.item?_of_append there) there

theorem IsTree.follows (tree : fs.IsTree) (isClean : clean path = path)
    (short : ∀ part ∈ Text.splitOn '/' path, part.utf8ByteSize ≤ nameLimit)
    (there : fs.item? (fs.literalLocation path) = some item) : fs.Follows path := by
  have dir : fs.item? (fs.start path) = some .directory := by
    unfold FileSystem.start
    split
    · exact item?_root fs
    · exact tree.start
  obtain ⟨-, blanks, nothing, cut⟩ := clean_cases path
  obtain ⟨ups, names, parts, up, name, -⟩ := cleaned_eq (isAbsolute path) (Text.splitOn '/' path)
  have skipped := follow_blanks dir nothing
  rw [isClean, show cleanParts path = ups ++ names from parts] at cut
  have place : fs.literalLocation path = (ups ++ names).foldl stepTo (fs.start path) := by
    rw [literalLocation_eq, cut, foldl_append, ← (follow_eq_ok_iff.mp skipped).1]
  rw [place] at there
  unfold Follows
  rw [place, cut, follow_append, skipped]
  refine follow_of_isTree tree dir up name (fun part h => short part ?_) there
  rw [cut]
  exact mem_append_right _ (mem_append_right _ h)

end FileSystem

namespace Standard.Caching

variable {safe : FileSystem → Prop} (es : List Effect)

/-- A computation comes to its end, with or without a problem, and leaves this file system. -/
def Leaves (x : Caching α) (fs fs' : FileSystem) : Prop :=
  (∃ a, x fs = .ok a fs') ∨ ∃ e, x fs = .error e fs'

/-- A computation does nothing but some effects. Wherever they are cut off, `safe` holds, and if the computation comes
to its end without a problem, `post` does. -/
def Safe (safe : FileSystem → Prop) (fs : FileSystem) (x : Caching α) (post : α → FileSystem → Prop) : Prop :=
  ∃ es, (∀ fs', x.Leaves fs fs' → fs' = fs.performAll es) ∧ (∀ fs', fs.CutOff es fs' → safe fs') ∧
    ∀ a fs', x fs = .ok a fs' → post a fs'

variable {x : Caching α}

theorem Safe.of_ok (run : x fs = .ok a (fs.performAll es)) (holds : ∀ fs', fs.CutOff es fs' → safe fs')
    (done : post a (fs.performAll es)) : Safe safe fs x post := by
  refine ⟨es, ?_, holds, fun a' fs' h => ?_⟩
  · rintro fs' (⟨a', h⟩ | ⟨e, h⟩)
    · cases run.symm.trans h
      rfl
    · cases run.symm.trans h
  · cases run.symm.trans h
    exact done

theorem Safe.of_error (stops : x fs = .error e (fs.performAll es))
    (holds : ∀ fs', fs.CutOff es fs' → safe fs') : Safe safe fs x post := by
  refine ⟨es, ?_, holds, fun a' fs' h => ?_⟩
  · rintro fs' (⟨a', h⟩ | ⟨e, h⟩)
    · cases stops.symm.trans h
    · cases stops.symm.trans h
      rfl
  · cases stops.symm.trans h

theorem safe_of_cutOff_nil (holds : safe fs) (cut : fs.CutOff [] fs') : safe fs' := by
  cases cut
  exact holds

theorem Safe.idle (run : x fs = .ok a fs) (holds : safe fs) (done : post a fs) : Safe safe fs x post :=
  .of_ok [] run (fun _ => safe_of_cutOff_nil holds) done

theorem Safe.error (holds : safe fs) (stops : x fs = .error e fs) : Safe safe fs x post :=
  .of_error [] stops fun _ => safe_of_cutOff_nil holds

theorem Safe.perform {e : Effect} (run : x fs = .ok a (fs.perform e)) (before : safe fs)
    (torn : ∀ items, e.Torn fs.items items → safe { fs with items := items }) (after : safe (fs.perform e))
    (done : post a (fs.perform e)) : Safe safe fs x post := by
  refine .of_ok [e] run (fun fs' cut => ?_) done
  cases cut with
  | between => exact before
  | inside h => exact torn _ h
  | behind h => exact safe_of_cutOff_nil after h

theorem run_bind (run : x fs = .ok a fs₁) : (x >>= f) fs = f a fs₁ := by
  show EStateM.bind x f fs = _
  rw [EStateM.bind, run]

theorem Safe.bind {post : β → FileSystem → Prop}
    (first : Safe safe fs x mid) (second : ∀ a fs, safe fs → mid a fs → Safe safe fs (f a) post) :
    Safe safe fs (x >>= f) post := by
  obtain ⟨es, leaves, holds, done⟩ := first
  cases run : x fs with
  | error e fs₁ =>
    have stops : (x >>= f) fs = .error e fs₁ := by
      show EStateM.bind x f fs = _
      rw [EStateM.bind, run]
    rw [leaves _ (.inr ⟨e, run⟩)] at stops
    exact .of_error es stops holds
  | ok a fs₁ =>
    have goesOn : (x >>= f) fs = f a fs₁ := run_bind run
    have middle := leaves _ (.inl ⟨a, run⟩)
    have still : safe fs₁ := middle ▸ holds _ (.all fs es)
    obtain ⟨es', leaves', holds', done'⟩ := second a fs₁ still (done a fs₁ run)
    refine ⟨es ++ es', ?_, ?_, ?_⟩
    · intro fs' h
      unfold Leaves at h
      rw [goesOn] at h
      rw [leaves' fs' h, middle, FileSystem.performAll, FileSystem.performAll, FileSystem.performAll, foldl_append]
    · intro fs' cut
      rcases cut.append with cut | cut
      · exact holds fs' cut
      · rw [← middle] at cut
        exact holds' fs' cut
    · intro b fs' h
      rw [goesOn] at h
      exact done' b fs' h

theorem Safe.congr (same : x fs = y fs) (h : Safe safe fs y post) : Safe safe fs x post := by
  obtain ⟨es, leaves, holds, done⟩ := h
  refine ⟨es, ?_, holds, ?_⟩
  · unfold Leaves at leaves ⊢
    rwa [same]
  · rwa [same]

theorem Safe.mono (h : Safe safe fs x post)
    (weaker : ∀ a fs', post a fs' → post' a fs') : Safe safe fs x post' := by
  obtain ⟨es, leaves, holds, done⟩ := h
  exact ⟨es, leaves, holds, fun a fs' run => weaker a fs' (done a fs' run)⟩

end Standard.Caching

end Impulse
