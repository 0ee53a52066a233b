import Impulse.Proofs.CacheTree
import Mathlib.Logic.Relation

/-!
# The cached tree survives interruptions

A call that puts the standard tree into the cache can be cut off between two effects or in one of them, and so can the
calls after it. The marker is written last and removed with the tree, so a marker only stands beside the whole tree,
wherever a call is cut off: this is carried through every step of a call, and through any number of calls.
-/

namespace Impulse.Standard

open List Text.Path FileSystem

theorem marked_of_grown (h : fs.Grown fs') (marked : Marked cache fs') : Marked cache fs := by
  unfold Marked at marked ⊢
  rw [h.literalLocation] at marked
  rcases h.item (fs.literalLocation (markerPath cache)) with same | ⟨-, made⟩
  · exact same ▸ marked
  · rw [made] at marked
    cases marked

theorem Sound.grown (h : Sound cache fs) (grown : fs.Grown fs') : Sound cache fs' := by
  intro marked
  obtain ⟨tree, base, file⟩ := h (marked_of_grown grown marked)
  refine ⟨?_, ?_, fun f mem => ⟨(file f mem).1, ?_⟩⟩
  · rw [grown.literalLocation]
    exact grown.item_eq tree
  · rw [grown.literalLocation]
    exact grown.item_eq base
  · rw [grown.literalLocation]
    exact grown.item_eq (file f mem).2

theorem ensureAll_sound (sound : Sound cache fs) (paths : List String) :
    ∃ es, (fs.ensureAll paths).1 = fs.performAll es ∧ (∀ fs', fs.CutOff es fs' → Sound cache fs') ∧
      fs.Grown (fs.ensureAll paths).1 ∧ ∀ path, paths.getLast? = some path → (fs.ensureAll paths).2 = none →
        (Text.splitOn '/' path).getLast? ≠ some "" → (fs.ensureAll paths).1.Follows path ∧
          (fs.ensureAll paths).1.item? ((fs.ensureAll paths).1.literalLocation path) = some .directory := by
  induction paths generalizing fs with
  | nil =>
    exact ⟨[], rfl, fun _ => Caching.safe_of_cutOff_nil sound, .refl fs, by simp⟩
  | cons first paths ih =>
    rw [ensureAll]
    cases made : fs.ensureDirectory first with
    | error e =>
      exact ⟨[], rfl, fun _ => Caching.safe_of_cutOff_nil sound, .refl fs, fun _ _ stopped => by cases stopped⟩
    | ok fs₁ =>
      have grown : fs.Grown fs₁ := by
        rcases ensureDirectory_cases made with ⟨rfl, -⟩ | ⟨x, -, free, rfl⟩
        · exact .refl _
        · exact .makeDirectory free
      obtain ⟨es, run, safe, grown', last⟩ := ih (sound.grown grown)
      have last (path : String) (h : (first :: paths).getLast? = some path) (done : (fs₁.ensureAll paths).2 = none)
          (named : (Text.splitOn '/' path).getLast? ≠ some "") : (fs₁.ensureAll paths).1.Follows path ∧
            (fs₁.ensureAll paths).1.item? ((fs₁.ensureAll paths).1.literalLocation path) = some .directory := by
        cases paths with
        | nil =>
          obtain rfl : first = path := by simpa using h
          exact directory_of_ensureDirectory named made
        | cons next paths => exact last path (by simpa using h) done named
      dsimp only
      rcases ensureDirectory_cases made with ⟨rfl, -⟩ | ⟨x, -, free, rfl⟩
      · exact ⟨es, run, safe, grown', last⟩
      · refine ⟨.makeDirectory x :: es, run, ?_, grown.trans grown', last⟩
        intro fs' cut
        cases cut with
        | between => exact sound
        | inside torn => cases torn
        | behind cut => exact safe fs' cut

theorem makeDirectories_safe (sound : Sound cache fs) (cause : String → FileProblem → CacheProblem)
    (named : (Text.splitOn '/' path).getLast? ≠ some "") :
    Caching.Safe (Sound cache) fs (makeDirectories cause path) fun _ fs' => fs.Grown fs' ∧ fs'.Follows path ∧
      fs'.item? (fs'.literalLocation path) = some .directory := by
  obtain ⟨es, run, safe, grown, last⟩ := ensureAll_sound sound (pathsAbove path ++ [path])
  unfold Standard.makeDirectories
  cases made : fs.makeDirectories path with
  | mk fs₁ problem =>
    have ends : fs.ensureAll (pathsAbove path ++ [path]) = (fs₁, problem) := made
    rw [ends] at run grown last
    obtain rfl : fs₁ = fs.performAll es := run
    cases problem with
    | none =>
      refine .of_ok es (a := ()) ?_ safe ⟨grown, last path (by simp) rfl named⟩
      rw [made]
    | some problem =>
      refine .of_error es (e := cause problem.1 problem.2) ?_ safe
      rw [made]

theorem writeFile_safe (sound : Sound cache fs) (cause : String → FileProblem → CacheProblem)
    (torn : fs.Follows path → ∀ part, part.toList <+: text.toList →
      Sound cache (fs.perform (.write (fs.literalLocation path) part))) :
    Caching.Safe (Sound cache) fs (writeFile cause path text) fun _ fs' =>
      FileProblem.ofPath? path = none ∧ fs.Follows path ∧ fs.item? (fs.literalLocation path) ≠ some .directory ∧
        fs' = fs.perform (.write (fs.literalLocation path) text) := by
  cases written : fs.write path text with
  | error e =>
    refine .error sound (e := cause path e) ?_
    unfold Standard.writeFile
    rw [written]
  | ok fs₁ =>
    have run : writeFile cause path text fs = .ok () fs₁ := by
      unfold Standard.writeFile
      rw [written]
    unfold FileSystem.write at written
    split at written
    · cases written
    · next x located =>
      obtain ⟨allowed, follows, rfl⟩ := locate_eq_ok.mp located
      split at written
      · cases written
      · next free =>
        cases written
        refine .perform run sound ?_ (torn follows text (prefix_refl _)) ⟨allowed, follows, free, rfl⟩
        rintro items ⟨_, begins⟩
        exact (torn follows _ begins).congr rfl rfl

theorem writeFiles_safe (todo : List (String × String)) (among : todo ⊆ files) (distinct : (todo.map (·.1)).Nodup)
    (unmarked : ¬Marked cache fs) :
    Caching.Safe (Sound cache) fs (writeFiles (cacheTree cache) todo) fun _ fs' =>
      fs'.workingDirectory = fs.workingDirectory ∧ (∀ path, fs.Follows path → fs'.Follows path) ∧
      (∀ x, (∀ file ∈ todo, x ≠ fs.literalLocation (cacheTree cache) ++ Text.splitOn '/' file.1) →
        fs'.item? x = fs.item? x) ∧
      ∀ file ∈ todo, FileProblem.ofPath? (join [cacheTree cache, file.1]) = none ∧
        fs'.item? (fs.literalLocation (cacheTree cache) ++ Text.splitOn '/' file.1) = some (.file file.2) := by
  induction todo generalizing fs with
  | nil =>
    exact .idle rfl (fun marked => absurd marked unmarked) ⟨rfl, fun _ h => h, fun _ _ => rfl, forall_mem_nil _⟩
  | cons file todo ih =>
    obtain ⟨mem, among⟩ := cons_subset.mp among
    obtain ⟨new, distinct⟩ := nodup_cons.mp distinct
    have place := place_file fs cache mem
    obtain ⟨name, cut, -, -⟩ := splitOn_file mem
    have still (part : String) :
        ¬Marked cache (fs.perform (.write (fs.literalLocation (join [cacheTree cache, file.1])) part)) := by
      intro marked
      refine unmarked ?_
      have other : fs.literalLocation (markerPath cache) ≠ fs.literalLocation (join [cacheTree cache, file.1]) := by
        rw [place, place_marker, cut]
        simp
      have item := item?_write fs (fs.literalLocation (join [cacheTree cache, file.1]))
        (fs.literalLocation (markerPath cache)) part
      rw [if_neg fun same => other same.1] at item
      exact item.symm.trans marked
    refine .bind (writeFile_safe (fun marked => absurd marked unmarked) .noFile fun _ part _ marked =>
      absurd marked (still part)) ?_
    rintro - fs₁ - ⟨allowed, -, free, rfl⟩
    refine (ih among distinct (still file.2)).mono ?_
    rintro - fs' ⟨start, follows, others, texts⟩
    refine ⟨start, fun path h => follows path (Follows.write h free _), ?_, ?_⟩
    · intro x elsewhere
      obtain ⟨first, elsewhere⟩ := forall_mem_cons.mp elsewhere
      rw [others x elsewhere, item?_write, if_neg fun same => first (same.1.trans place)]
    · refine forall_mem_cons.mpr ⟨⟨allowed, ?_⟩, texts⟩
      have elsewhere : ∀ other ∈ todo, fs.literalLocation (cacheTree cache) ++ Text.splitOn '/' file.1
          ≠ fs.literalLocation (cacheTree cache) ++ Text.splitOn '/' other.1 := by
        intro other h same
        refine new (mem_map.mpr ⟨other, h, ?_⟩)
        have parts := congrArg ("/".intercalate ·) (append_cancel_left same)
        simpa only [Text.intercalate_splitOn] using parts.symm
      rw [others _ elsewhere, item?_write, if_pos]
      refine ⟨place.symm, ?_⟩
      rw [cut]
      simp

theorem removeTree_safe (unmarked : ¬Marked cache fs) :
    Caching.Safe (Sound cache) fs (modify (·.removeTree (cacheTree cache))) fun _ fs' => ¬Marked cache fs' := by
  have sound : Sound cache fs := fun marked => absurd marked unmarked
  have run : (modify (·.removeTree (cacheTree cache)) : Caching Unit) fs = .ok () (fs.removeTree (cacheTree cache)) :=
    rfl
  unfold FileSystem.removeTree at run
  split at run
  · exact .idle run sound unmarked
  · next x located =>
    have still (kept : Location → Bool) :
        ¬Marked cache { fs with items := fs.items.filter fun e => kept e.1 } := by
      intro marked
      have item := item?_filter fs kept (fs.literalLocation (markerPath cache))
      split at item
      · exact unmarked (item.symm.trans marked)
      · cases item.symm.trans marked
    have gone : ¬Marked cache (fs.perform (.removeTree x)) := fun marked =>
      still (fun y => !x.isPrefixOf y) ((marked_congr rfl rfl).mp marked)
    refine .perform run sound ?_ (fun marked => absurd marked gone) gone
    intro items torn
    cases torn with
    | removeTree _ kept => exact fun marked => absurd marked (still fun y => !x.isPrefixOf y || kept y)

theorem install_safe (unmarked : ¬Marked cache fs) :
    Caching.Safe (Sound cache) fs (install cache) fun _ fs' => Installed cache fs' ∧ fs'.Follows (cacheTree cache) := by
  refine .bind (removeTree_safe unmarked) ?_
  rintro - fs₁ sound₁ unmarked₁
  refine .bind (makeDirectories_safe sound₁ .noTree (isStem_cacheTree cache).getLast?_ne) ?_
  rintro - fs₂ sound₂ ⟨grown₂, follows₂, tree₂⟩
  have unmarked₂ : ¬Marked cache fs₂ := fun marked => unmarked₁ (marked_of_grown grown₂ marked)
  refine .bind (makeDirectories_safe sound₂ .noTree (isStem_base cache).getLast?_ne) ?_
  rintro - fs₃ sound₃ ⟨grown₃, -, base₃⟩
  have unmarked₃ : ¬Marked cache fs₃ := fun marked => unmarked₂ (marked_of_grown grown₃ marked)
  refine .bind (writeFiles_safe files (fun _ h => h) (by decide) unmarked₃) ?_
  rintro - fs₄ sound₄ ⟨start, follows, others, texts⟩
  have place := literalLocation_congr start
  have elsewhere (parts : List String) (short : parts.length < 2) : ∀ file ∈ files,
      fs₃.literalLocation (cacheTree cache) ++ parts ≠
        fs₃.literalLocation (cacheTree cache) ++ Text.splitOn '/' file.1 := by
    intro file mem same
    obtain ⟨name, cut, -⟩ := splitOn_file mem
    rw [append_cancel_left same, cut] at short
    exact absurd short (by simp)
  have installed : Installed cache fs₄ := by
    refine ⟨?_, ?_, fun file mem => ⟨(texts file mem).1, ?_⟩⟩
    · have same := others _ (elsewhere [] (by decide))
      rw [append_nil] at same
      rw [place, same, grown₃.literalLocation]
      exact grown₃.item_eq tree₂
    · rw [place_base] at base₃
      rw [place, place_base, others _ (elsewhere ["base"] (by decide))]
      exact base₃
    · rw [place, place_file fs₃ cache mem]
      exact (texts file mem).2
  -- The marker comes last, so all the others are there already, whatever part of it is written.
  have marking (part : String) :
      Installed cache (fs₄.perform (.write (fs₄.literalLocation (markerPath cache)) part)) := by
    refine installed.congr rfl fun parts other => ?_
    rw [item?_write, place_marker, if_neg fun same => other (append_cancel_left same.1)]
  refine (writeFile_safe sound₄ .noMarker fun _ part _ _ => marking part).mono ?_
  rintro - fs₅ ⟨-, -, free, rfl⟩
  exact ⟨marking _, Follows.write (follows _ (grown₃.follows follows₂)) free _⟩

theorem lock_safe (sound : Sound cache fs) : Caching.Safe (Sound cache) fs (lock (lockPath cache)) fun _ fs' =>
    (∀ path, fs.Follows path → fs'.Follows path) ∧ fs'.workingDirectory = fs.workingDirectory ∧
      ∀ x, fs.item? x = some .directory → fs'.item? x = some .directory := by
  have outside (text : String) (parts : List String) :
      (fs.perform (.write (fs.literalLocation (lockPath cache)) text)).item?
          (fs.literalLocation (cacheTree cache) ++ parts)
        = fs.item? (fs.literalLocation (cacheTree cache) ++ parts) := by
    rw [item?_write, place_lock, place_tree, if_neg]
    rintro ⟨same, -⟩
    rw [append_assoc] at same
    have first : digestName = ".lock" := (List.cons.inj (append_cancel_left same)).1
    rw [digestName_eq] at first
    exact absurd first (by decide)
  have still (text : String) : Sound cache (fs.perform (.write (fs.literalLocation (lockPath cache)) text)) := by
    intro marked
    have same := outside text [".hash"]
    rw [← place_marker] at same
    exact (sound (same.symm.trans marked)).congr rfl fun parts _ => outside text parts
  cases found : fs.read (lockPath cache) with
  | ok text =>
    exact .idle (lock_of_ok found) sound ⟨fun _ h => h, rfl, fun _ h => h⟩
  | error e =>
    refine .congr (lock_of_error found) ((writeFile_safe sound .noLock fun _ part _ => still part).mono ?_)
    rintro - fs' ⟨-, -, free, rfl⟩
    exact ⟨fun path h => Follows.write h free "", rfl, fun x => directory_write free ""⟩

theorem materializeLooked_safe (sound : Sound cache fs) :
    Caching.Safe (Sound cache) fs (materializeLooked cache) fun dir fs' =>
      dir = cacheTree cache ∧ Installed cache fs' ∧ fs'.Follows (cacheTree cache) := by
  refine .bind (makeDirectories_safe sound .noDirectory (isStem_cacheRoot cache).getLast?_ne) ?_
  rintro - fs₁ sound₁ ⟨-, follows₁, root₁⟩
  refine .bind (lock_safe sound₁) ?_
  rintro - fs₂ sound₂ ⟨follows₂, start₂, stays₂⟩
  have look : Caching.Safe (Sound cache) fs₂ get fun seen fs' => fs₂ = seen ∧ fs₂ = fs' := .idle rfl sound₂ ⟨rfl, rfl⟩
  refine .bind look ?_
  rintro seen fs₃ - ⟨rfl, rfl⟩
  have root₂ : fs₂.item? (fs₂.literalLocation (cacheRoot cache)) = some .directory := by
    rw [literalLocation_congr start₂]
    exact stays₂ _ root₁
  dsimp only
  split
  · next missing =>
    have unmarked : ¬Marked cache fs₂ := fun marked => by
      have seen := isComplete_of_marked marked (sound₂ marked) (follows₂ _ follows₁) root₂
      rw [seen] at missing
      cases missing
    refine .bind (install_safe unmarked) ?_
    rintro - fs₃ sound₃ done
    exact .idle rfl sound₃ ⟨rfl, done⟩
  · next complete =>
    obtain ⟨-, follows, marked⟩ := isComplete_iff.mp (by simpa using complete)
    rw [markerPath_eq] at follows
    exact .idle rfl sound₂ ⟨rfl, sound₂ marked, (follows.of_append (cacheTree_ne_empty cache)).1⟩

/-- What a call can leave: it comes to its end, with or without a problem, or its effects are cut off. -/
inductive Attempt (cache : String) (fs : FileSystem) : FileSystem → Prop
  | ended {fs' : FileSystem} (h : (materialize cache).Leaves fs fs') : Attempt cache fs fs'
  | cutOff {es : List Effect} {fs₁ fs' : FileSystem} (h : (materialize cache).Leaves fs fs₁)
      (effects : fs₁.effects = fs.effects ++ es) (cut : fs.CutOff es fs') : Attempt cache fs fs'

theorem Attempt.sound (sound : Sound cache fs) (h : Attempt cache fs fs') : Sound cache fs' := by
  have sound' : Sound cache (looked cache fs) := sound.congr rfl rfl
  obtain ⟨es, leaves, holds, -⟩ := materializeLooked_safe sound'
  have run {fs₁ : FileSystem} (h : (materialize cache).Leaves fs fs₁) : fs₁ = (looked cache fs).performAll es := by
    refine leaves fs₁ ?_
    unfold Caching.Leaves at h ⊢
    rwa [← materialize_run]
  cases h with
  | ended h =>
    rw [run h]
    exact holds _ (.all _ es)
  | cutOff h effects cut =>
    rw [run h, effects_performAll] at effects
    obtain rfl := append_cancel_left effects
    exact (holds _ (cut.ask (looked cache fs).asked)).congr rfl rfl

theorem exists_locate (h : materialize cache fs = .ok dir fs') :
    ∃ fs₁ x, FileSystem.locate fs₁ (markerPath cache) = .ok x := by
  rw [materialize_run] at h
  unfold materializeLooked at h
  obtain ⟨_, _, -, made⟩ := Caching.of_bind h
  obtain ⟨_, _, -, locked⟩ := Caching.of_bind made
  obtain ⟨seen, _, -, last⟩ := Caching.of_bind locked
  split at last
  · obtain ⟨_, _, installed, -⟩ := Caching.of_bind last
    unfold install at installed
    obtain ⟨_, _, -, removed⟩ := Caching.of_bind installed
    obtain ⟨_, _, -, tree⟩ := Caching.of_bind removed
    obtain ⟨_, _, -, base⟩ := Caching.of_bind tree
    obtain ⟨_, fs₁, -, marking⟩ := Caching.of_bind base
    refine ⟨fs₁, ?_⟩
    unfold Standard.writeFile FileSystem.write at marking
    cases located : fs₁.locate (markerPath cache) with
    | ok x => exact ⟨x, rfl⟩
    | error e =>
      rw [located] at marking
      cases marking
  · next complete =>
    obtain ⟨allowed, follows, -⟩ := isComplete_iff.mp (by simpa using complete)
    exact ⟨seen, _, locate_eq_ok.mpr ⟨allowed, follows, rfl⟩⟩

/-- If there was no valid marker in the beginning, then behind any calls, each of which may be cut off, a call that
gives a directory leaves every file of the tree in it, with its text. -/
theorem materialize_recovers {dir : String} {fs₀ : FileSystem} (tree : fs₀.IsTree)
    (unmarked : isComplete fs₀ cache = false) (attempts : Relation.ReflTransGen (Attempt cache) fs₀ fs)
    (returned : materialize cache fs = .ok dir fs') : ∀ file ∈ files, fs'.read (join [dir, file.1]) = .ok file.2 := by
  have sound₀ : Sound cache fs₀ := by
    intro marked
    obtain ⟨fs₁, x, located⟩ := exists_locate returned
    obtain ⟨allowed, follows, -⟩ := locate_eq_ok.mp located
    have isClean : clean (markerPath cache) = markerPath cache := clean_join (cacheTree_ne_empty cache) _
    have follows := tree.follows isClean (follow_eq_ok_iff.mp follows).2.1 marked
    rw [isComplete_iff.mpr ⟨allowed, follows, marked⟩] at unmarked
    cases unmarked
  have sound : Sound cache fs := by
    clear returned
    induction attempts with
    | refl => exact sound₀
    | tail _ attempt ih => exact attempt.sound ih
  have sound' : Sound cache (looked cache fs) := sound.congr rfl rfl
  obtain ⟨-, -, -, done⟩ := materializeLooked_safe sound'
  rw [materialize_run] at returned
  obtain ⟨rfl, installed, follows⟩ := done dir fs' returned
  exact installed.read follows

theorem materialize_of_install
    (made : makeDirectories .noDirectory (cacheRoot cache) (looked cache fs) = .ok () fs₁)
    (locked : lock (lockPath cache) fs₁ = .ok () fs₂) (unmarked : isComplete fs₂ cache = false)
    (installed : install cache fs₂ = .ok () fs') : materialize cache fs = .ok (cacheTree cache) fs' := by
  have seen : (get : Caching FileSystem) fs₂ = .ok fs₂ fs₂ := rfl
  rw [materialize_run, materializeLooked, Caching.run_bind made, Caching.run_bind locked, Caching.run_bind seen, unmarked]
  exact Caching.run_bind installed

theorem ok_of_run' {x : EStateM ε σ α} (h : x.run' s = some a) :
    ∃ s', x s = .ok a s' := by
  unfold EStateM.run' EStateM.run at h
  cases out : x s with
  | ok b s' =>
    rw [out] at h
    cases h
    exact ⟨s', rfl⟩
  | error e s' =>
    rw [out] at h
    cases h

theorem materialize_returns : ∃ fs', materialize "c" (performAll {} [.makeDirectory ["c"], .makeDirectory ["c", "std"]])
    = .ok (cacheTree "c") fs' := by
  have tree : cacheTree "c" = "c/std/eb6197a1072321d0" := by
    rw [cacheTree, digestName_eq]
    decide +kernel
  have marker : markerPath "c" = "c/std/eb6197a1072321d0/.hash" := by
    rw [markerPath, tree]
    decide +kernel
  let fs := looked "c" (performAll {} [.makeDirectory ["c"], .makeDirectory ["c", "std"]])
  have made : makeDirectories .noDirectory (cacheRoot "c") fs = .ok () fs := by
    rw [show cacheRoot "c" = "c/std" by decide +kernel]
    rfl
  have locked : lock (lockPath "c") fs = .ok () (fs.perform (.write ["c", "std", ".lock"] "")) := by
    rw [show lockPath "c" = "c/std/.lock" by decide +kernel]
    rfl
  have missing : (fs.perform (.write ["c", "std", ".lock"] "")).read "c/std/eb6197a1072321d0/.hash"
      = .error .missing :=
    rfl
  have unmarked : isComplete (fs.perform (.write ["c", "std", ".lock"] "")) "c" = false := by
    rw [isComplete, marker, missing]
  have installs : (install "c").run' (fs.perform (.write ["c", "std", ".lock"] "")) = some () := by
    rewrite [install, tree, marker, digestName_eq]
    decide +kernel
  obtain ⟨fs', installed⟩ := ok_of_run' installs
  exact ⟨fs', materialize_of_install made locked unmarked installed⟩

/-- The first call on an empty file system is cut off when the directory of the trees is made, and the second one
returns. -/
theorem materialize_recovers_directories : IsTree {} ∧ isComplete {} "c" = false ∧ ∃ fs fs', Attempt "c" {} fs ∧
    fs.items = [(["c"], .directory), (["c", "std"], .directory)] ∧ materialize "c" fs = .ok (cacheTree "c") fs' ∧
    ∀ file ∈ files, fs'.read (join [cacheTree "c", file.1]) = .ok file.2 := by
  have root : cacheRoot "c" = "c/std" := by decide +kernel
  have tree : IsTree {} := by
    refine ⟨fun x item there => ?_, item?_root _⟩
    by_cases top : x = []
    · rw [top]
      exact item?_root _
    · simp [item?, top] at there
  have noMarker : ¬Marked "c" {} := by
    intro marked
    unfold Marked at marked
    rw [place_marker] at marked
    simp [item?] at marked
  have unmarked : isComplete {} "c" = false :=
    Bool.eq_false_iff.mpr fun complete => noMarker (isComplete_iff.mp complete).2.2
  -- Two directories are made, and the rest of the call is a call that finds them.
  let es : List Effect := [.makeDirectory ["c"], .makeDirectory ["c", "std"]]
  have made : makeDirectories .noDirectory (cacheRoot "c") (looked "c" {}) =
      .ok () ((looked "c" {}).performAll es) := by
    rw [root]
    rfl
  have found : makeDirectories .noDirectory (cacheRoot "c") ((looked "c" {}).performAll es)
      = .ok () ((looked "c" {}).performAll es) := by
    rw [root]
    rfl
  have rest : materialize "c" {} = materializeLooked "c" ((looked "c" {}).performAll es) := by
    rw [materialize_run]
    unfold materializeLooked
    rw [Caching.run_bind made, Caching.run_bind found]
  have sound₀ : Sound "c" (looked "c" {}) := fun marked => absurd ((marked_congr rfl rfl).mp marked) noMarker
  have sound : Sound "c" ((looked "c" {}).performAll es) :=
    sound₀.grown (Grown.trans (.makeDirectory rfl) (.makeDirectory rfl))
  obtain ⟨es', leaves, -, -⟩ := materializeLooked_safe sound
  obtain ⟨fs₁, left⟩ : ∃ fs₁, (materialize "c").Leaves {} fs₁ := by
    cases out : materialize "c" {} with
    | ok dir fs₁ => exact ⟨fs₁, .inl ⟨dir, out⟩⟩
    | error e fs₁ => exact ⟨fs₁, .inr ⟨e, out⟩⟩
  have effects : fs₁.effects = es ++ es' := by
    rw [Caching.Leaves, rest] at left
    rw [leaves fs₁ left, effects_performAll]
    rfl
  have attempt : Attempt "c" {} (performAll {} es) := .cutOff left effects (.behind (.behind (.between _ es')))
  obtain ⟨fs', returned⟩ := materialize_returns
  exact ⟨tree, unmarked, performAll {} es, fs', attempt, rfl, returned,
    materialize_recovers tree unmarked (.single attempt) returned⟩

end Impulse.Standard
