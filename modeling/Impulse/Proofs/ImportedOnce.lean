import Impulse.Proofs.Additions
import Impulse.Proofs.Balance

/-!
# Files are imported once

A file is marked before it is read, and marks are never taken back. The files that are imported from it are read
with a copy of the marks, and their marks are taken over behind them. So however files import each other, each
of them is read at most once in a compilation and has at most one entry of its own, and so has each header. The
entries of an imported file follow the entry of its import in one block, with the blocks of its own imports in
between.
-/

namespace Impulse

open List

variable {n : Node}

namespace Node

def imported? : Node → Option String
  | .node _ _ (.source path) => some path
  | _ => none

def importKey? : Node → Option UInt64
  | .node _ _ (.source path) => some (sourceKey path)
  | .node _ _ (.header path) => some (sourceKey path)
  | _ => none

theorem importKey?_of_imported? (h : n.imported? = some path) : n.importKey? = some (sourceKey path) := by
  unfold imported? at h
  split at h
  · cases h
    rfl
  · cases h

theorem imported?_of_importKey? (h : n.importKey? = none) : n.imported? = none := by
  cases hn : n.imported? with
  | none => rfl
  | some path =>
    rw [importKey?_of_imported? hn] at h
    cases h

end Node

namespace Program

def importKeys (p : Program) : List UInt64 :=
  p.filterMap (·.node.importKey?)

@[simp] theorem importKeys_append (p q : Program) : importKeys (p ++ q) = importKeys p ++ importKeys q :=
  filterMap_append

@[simp] theorem importKeys_cons (e : Entry) (p : Program) :
    importKeys (e :: p) = e.node.importKey?.toList ++ importKeys p := by
  unfold importKeys
  cases h : e.node.importKey? with
  | none | some key => simp [h]

def imports (p : Program) : List String :=
  p.filterMap (·.node.imported?)

theorem imports_append (p q : Program) : imports (p ++ q) = imports p ++ imports q :=
  filterMap_append

theorem map_imports_sublist (p : Program) : (p.imports.map sourceKey).Sublist p.importKeys := by
  induction p with
  | nil => exact .refl _
  | cons e p ih =>
    rw [importKeys_cons, ← singleton_append, imports_append, map_append]
    refine .append ?_ ih
    cases h : e.node.imported? with
    | none => simp [imports, h]
    | some path => simp [imports, h, Node.importKey?_of_imported? h]

theorem importKeys_of_plain {ns : List Node} (h : ∀ n ∈ ns, n.importKey? = none) (file : String) :
    importKeys (ns.map (Entry.of · file)) = [] := by
  refine filterMap_eq_nil_iff.mpr fun e he => ?_
  obtain ⟨n, hn, rfl⟩ := mem_map.mp he
  exact h n hn

/-- The entries of the file `path`: its own ones, where each import is followed by the entries of the imported
file. -/
inductive LaidOut : String → Program → Prop
  | empty (path : String) : LaidOut path []
  | own {path : String} {p : Program} {e : Entry} (h : LaidOut path p) (file : e.file = path)
      (plain : e.node.imported? = none) : LaidOut path (p ++ [e])
  | imports {path target : String} {p inner : Program} {e : Entry} (h : LaidOut path p)
      (file : e.file = path) (entry : e.node.imported? = some target)
      (inside : LaidOut target inner) : LaidOut path (p ++ e :: inner)

/-- Of the entries `before`, `e` and `rest`, those of the file `target` stand directly behind `e`, in the order in
which the file is laid out. -/
def BlockBehind (target : String) (before : Program) (e : Entry) (rest : Program) : Prop :=
  ∃ block after, rest = block ++ after ∧ LaidOut target block ∧
    ∀ e' ∈ before ++ e :: after, e'.file ≠ target

/-- Behind the entry of each import stand the entries of the imported file, the blocks of its own imports among
them, and nowhere else is an entry of that file. -/
def Contiguous (p : Program) : Prop :=
  ∀ before e rest target, p = before ++ e :: rest → e.node.imported? = some target →
    BlockBehind target before e rest

namespace BlockBehind

theorem behind (h : BlockBehind target before e rest)
    (others : ∀ e' ∈ last, e'.file ≠ target) : BlockBehind target before e (rest ++ last) := by
  obtain ⟨block, after, rfl, inside, apart⟩ := h
  refine ⟨block, after ++ last, append_assoc .., inside, fun e' he' => ?_⟩
  have place : e' ∈ before ++ e :: after ∨ e' ∈ last := by
    simpa [or_assoc] using he'
  exact place.elim (apart e') (others e')

theorem inFront (h : BlockBehind target before e rest)
    (others : ∀ e' ∈ first, e'.file ≠ target) : BlockBehind target (first ++ before) e rest := by
  obtain ⟨block, after, rfl, inside, apart⟩ := h
  refine ⟨block, after, rfl, inside, fun e' he' => ?_⟩
  rw [append_assoc] at he'
  exact (mem_append.mp he').elim (others e') (apart e')

end BlockBehind

theorem split_cases {inner} (h : p ++ i :: inner = before ++ e :: rest) :
    (∃ more, p = before ++ e :: more ∧ rest = more ++ i :: inner) ∨ (before = p ∧ e = i ∧ rest = inner) ∨
      ∃ more, before = p ++ i :: more ∧ inner = more ++ e :: rest := by
  rcases append_eq_append_iff.mp h with ⟨more, rfl, hrest⟩ | ⟨more, rfl, hrest⟩
  · cases more with
    | nil =>
      cases hrest
      exact .inr (.inl ⟨append_nil _, rfl, rfl⟩)
    | cons i' more =>
      cases hrest
      exact .inr (.inr ⟨more, rfl, rfl⟩)
  · cases more with
    | nil =>
      cases hrest
      exact .inr (.inl ⟨(append_nil _).symm, rfl, rfl⟩)
    | cons e' more =>
      cases hrest
      exact .inl ⟨more, rfl, rfl⟩

namespace LaidOut

theorem append (hp : LaidOut path p) (hq : LaidOut path q) : LaidOut path (p ++ q) := by
  induction hq with
  | empty => simpa using hp
  | own _ file plain ih =>
    rw [← append_assoc]
    exact .own (ih hp) file plain
  | imports _ file entry inside ih =>
    rw [← append_assoc]
    exact .imports (ih hp) file entry inside

theorem of_plain {ns : List Node} (h : ∀ n ∈ ns, n.importKey? = none) : LaidOut path (ns.map (Entry.of · path)) := by
  induction ns with
  | nil => exact .empty path
  | cons n ns ih =>
    have first : LaidOut path [Entry.of n path] :=
      .own (.empty path) rfl (Node.imported?_of_importKey? (h n (.head _)))
    exact first.append (ih fun m hm => h m (.tail _ hm))

theorem file_eq_or_mem (h : LaidOut path p) (he : e ∈ p) : e.file = path ∨ sourceKey e.file ∈ importKeys p := by
  induction h with
  | empty => cases he
  | own _ file _ ih =>
    rw [importKeys_append]
    rcases mem_append.mp he with old | new
    · exact (ih old).imp_right (mem_append_left _)
    · obtain rfl := mem_singleton.mp new
      exact .inl file
  | imports _ file entry _ ih ihInside =>
    rw [importKeys_append, importKeys_cons, Node.importKey?_of_imported? entry]
    rcases mem_append.mp he with old | new
    · exact (ih old).imp_right (mem_append_left _)
    · rcases mem_cons.mp new with rfl | inner
      · exact .inl file
      · rcases ihInside inner with same | deeper
        · exact .inr (by simp [same])
        · exact .inr (by simp [deeper])

theorem file_ne (h : LaidOut path p) (other : sourceKey target ≠ sourceKey path)
    (absent : sourceKey target ∉ importKeys p) (he : e ∈ p) : e.file ≠ target := by
  rintro rfl
  rcases h.file_eq_or_mem he with same | imported
  · exact other (congrArg sourceKey same)
  · exact absent imported

theorem key_mem (he : e ∈ p) (entry : e.node.imported? = some target) : sourceKey target ∈ importKeys p :=
  mem_filterMap.mpr ⟨e, he, Node.importKey?_of_imported? entry⟩

theorem contiguous (h : LaidOut path p) (once : (importKeys p).Nodup)
    (own : sourceKey path ∉ importKeys p) : Contiguous p := by
  induction h with
  | empty =>
    intro before e rest target split
    simp at split
  | @own path p last h file plain ih =>
    intro before e rest target split entry
    rw [importKeys_append] at once own
    rcases split_cases split with ⟨more, rfl, rfl⟩ | ⟨rfl, rfl, rfl⟩ | ⟨more, -, hnil⟩
    · have ownOuter := fun mem => own (mem_append_left _ mem)
      have found := ih (nodup_append.mp once).1 ownOuter before e more target rfl entry
      refine found.behind fun e' he' => ?_
      obtain rfl := mem_singleton.mp he'
      rintro rfl
      exact ownOuter (file ▸ key_mem (by simp) entry)
    · rw [plain] at entry
      cases entry
    · simp at hnil
  | @imports path source p inner i h file imported inside ih ihInside =>
    intro before e rest target split entry
    rw [importKeys_append, importKeys_cons, Node.importKey?_of_imported? imported] at once own
    simp only [Option.toList_some, singleton_append, mem_append, mem_cons, not_or] at once own
    obtain ⟨ownOuter, ownImport, ownInner⟩ := own
    obtain ⟨onceOuter, onceRest, apart⟩ := nodup_append.mp once
    obtain ⟨notInner, onceInner⟩ := nodup_cons.mp onceRest
    -- The import is an earlier one, the last one, or one of the imported file.
    rcases split_cases split with ⟨more, rfl, rfl⟩ | ⟨rfl, rfl, rfl⟩ | ⟨more, rfl, rfl⟩
    · have mem : sourceKey target ∈ importKeys (before ++ e :: more) := key_mem (by simp) entry
      refine (ih onceOuter ownOuter before e more target rfl entry).behind fun e' he' => ?_
      rcases mem_cons.mp he' with rfl | he'
      · rintro rfl
        exact ownOuter (file ▸ mem)
      · refine inside.file_ne (fun same => ?_) (fun deeper => ?_) he'
        · exact apart _ mem _ (.head _) same
        · exact apart _ mem _ (.tail _ deeper) rfl
    · rw [imported] at entry
      cases entry
      refine ⟨rest, [], (append_nil _).symm, inside, fun e' he' => ?_⟩
      rcases mem_append.mp he' with he' | he'
      · exact h.file_ne (Ne.symm ownImport) (fun mem => apart _ mem _ (.head _) rfl) he'
      · obtain rfl := mem_singleton.mp he'
        rintro rfl
        exact ownImport (congrArg sourceKey file.symm)
    · have mem : sourceKey target ∈ importKeys (more ++ e :: rest) := key_mem (by simp) entry
      have found := ihInside onceInner notInner more e rest target rfl entry
      rw [append_cons]
      refine found.inFront fun e' he' => ?_
      rcases mem_append.mp he' with he' | he'
      · refine h.file_ne (fun same => ownInner (same ▸ mem)) (fun outer => ?_) he'
        exact apart _ outer _ (.tail _ mem) rfl
      · obtain rfl := mem_singleton.mp he'
        rintro rfl
        exact ownInner (file ▸ mem)

end LaidOut

end Program

namespace State

variable {s s' s₁ : State}

def Plain (s : State) : Prop :=
  ∀ n ∈ s.deferral.nodes, n.importKey? = none

/-- The change imports a header, outside of all blocks. -/
def ImportsHeader (s s' : State) : Prop :=
  ∃ t path, s.blocks = [] ∧ (s.context.markImported (sourceKey path)).1 = true ∧
    s' = State.emitted { s with context := (s.context.markImported (sourceKey path)).2 } (.plain t (.header path))

theorem News.importKey? (h : s.News settings s' n) : n.importKey? = none ∨ s.ImportsHeader s' := by
  cases h with
  | header t bottom isNew after => exact .inr ⟨t, _, bottom, isNew, after⟩
  | write h | begin h => cases h <;> exact .inl rfl
  | _ => exact .inl rfl

end State

theorem Context.marked_of_new {c : Context} (h : (c.markImported key).1 = true) :
    key ∉ c.imported ∧ (c.markImported key).2.imported = c.imported ++ [key] := by
  unfold Context.markImported at h ⊢
  split at h
  · cases h
  · next isNew =>
    rw [if_neg isNew]
    exact ⟨by simpa using isNew, rfl⟩

/-- The keys differ from each other, and are marked in `after` and not in `before`. -/
structure Fresh (before after keys : List UInt64) : Prop where
  nodup : keys.Nodup
  new : ∀ key ∈ keys, key ∉ before
  marked : ∀ key ∈ keys, key ∈ after

namespace Fresh

theorem nil : Fresh a b [] :=
  ⟨.nil, nofun, nofun⟩

theorem append {keys} (h : Fresh a b keys) (h' : Fresh b c keys') (ab : a ⊆ b) (bc : b ⊆ c) : Fresh a c (keys ++ keys') := by
  refine ⟨nodup_append.mpr ⟨h.nodup, h'.nodup, ?_⟩, ?_, ?_⟩
  · rintro key old _ new rfl
    exact h'.new key new (h.marked key old)
  · intro key hkey
    rcases mem_append.mp hkey with old | new
    · exact h.new key old
    · exact fun known => h'.new key new (ab known)
  · intro key hkey
    rcases mem_append.mp hkey with old | new
    · exact bc (h.marked key old)
    · exact h'.marked key new

theorem of_new {context : Context} (h : (context.markImported key).1 = true) :
    Fresh context.imported (context.markImported key).2.imported [key] := by
  obtain ⟨isNew, marked⟩ := Context.marked_of_new h
  exact ⟨by simp, by simpa using isNew, by rw [marked]; simp⟩

theorem sublist {keys} (h : Fresh a b keys) (sub : keys'.Sublist keys) : Fresh a b keys' :=
  ⟨h.nodup.sublist sub, fun key hkey => h.new key (sub.subset hkey),
    fun key hkey => h.marked key (sub.subset hkey)⟩

theorem mono {keys} (h : Fresh a b keys) (bc : b ⊆ c) : Fresh a c keys :=
  ⟨h.nodup, h.new, fun key hkey => bc (h.marked key hkey)⟩

end Fresh

namespace State

variable {s s' s₁ s₂ : State}

/-- What lies between two states of reading a file: entries were added, the imported files were opened in the order
of their entries, and the keys of all imports were not marked before and are marked now. -/
structure Follows (s s' : State) : Prop where
  file : s'.file = s.file
  marks : s.context.imported ⊆ s'.context.imported
  added : ∃ (files : List SourceFile) (p : Program),
    s'.session.files = s.session.files ++ files ∧ s'.program = s.program ++ p ∧
      files.map (·.name) = p.imports ∧ Program.LaidOut s.file p ∧
      Fresh s.context.imported s'.context.imported p.importKeys

namespace Follows

theorem refl (s : State) : s.Follows s :=
  ⟨rfl, List.Subset.refl _, [], [], by simp, by simp, rfl, .empty _, .nil⟩

theorem trans (h : s.Follows s₁) (h' : s₁.Follows s₂) : s.Follows s₂ := by
  obtain ⟨file, marks, files, p, opened, listed, same, laidOut, fresh⟩ := h
  obtain ⟨file', marks', files', p', opened', listed', same', laidOut', fresh'⟩ := h'
  refine ⟨file'.trans file, fun _ hkey => marks' (marks hkey), files ++ files', p ++ p', ?_, ?_, ?_,
    laidOut.append (file ▸ laidOut'), ?_⟩
  · rw [opened', opened, append_assoc]
  · rw [listed', listed, append_assoc]
  · rw [map_append, same, same', Program.imports_append]
  · rw [Program.importKeys_append]
    exact fresh.append fresh' marks marks'

theorem of_adds (h : s.Adds (·.importKey? = none) s') (files : s'.session.files = s.session.files)
    (marks : s.context.imported ⊆ s'.context.imported) : s.Follows s' := by
  obtain ⟨ns, listed, plain⟩ := h.listed
  have noKeys := Program.importKeys_of_plain plain s.file
  have noImports : Program.imports (ns.map (Entry.of · s.file)) = [] := by
    have sub := Program.map_imports_sublist (ns.map (Entry.of · s.file))
    rw [noKeys] at sub
    simpa using sub
  refine ⟨h.file, marks, [], _, by simpa using files, listed, noImports.symm, .of_plain plain, ?_⟩
  rw [noKeys]
  exact .nil

theorem step (nested : s.Nested) (hs : s.Plain) (h : Step settings s s') : s.Follows s' ∧ s'.Plain := by
  obtain ⟨files, marks, -⟩ := h.keeps_marked
  by_cases header : s.ImportsHeader s'
  · obtain ⟨t, path, bottom, isNew, rfl⟩ := header
    obtain ⟨-, -, -, direct, -⟩ := nested.of_blocks_nil bottom
    rw [emitted_direct (s := { s with context := (s.context.markImported (sourceKey path)).2 }) _ direct]
      at marks ⊢
    refine ⟨⟨rfl, marks, [], _, by simp, rfl, rfl, .own (.empty _) rfl rfl, ?_⟩, hs⟩
    exact Fresh.of_new isNew
  · have adds := Adds.step h hs fun n new => new.importKey?.resolve_right header
    exact ⟨.of_adds adds files marks, adds.deferred⟩

theorem imports (nested : s.Nested) (hs : s.Plain) {t last : Token} (bottom : s.blocks = []) (isNew : (s.context.markImported source.key).1 = true)
    (inner : ((s.noted t source).child source last).Follows c)
    (taken : (s.noted t source).context.absorb c.context = (merged, none)) :
    s.Follows ((s.noted t source).absorbed c merged) ∧ ((s.noted t source).absorbed c merged).Plain := by
  obtain ⟨-, -, -, direct, -⟩ := nested.of_blocks_nil bottom
  rw [noted_direct direct] at inner taken ⊢
  obtain ⟨-, marks, files, p, opened, listed, same, laidOut, fresh⟩ := inner
  obtain rfl : c.program = p := listed
  obtain ⟨-, grown⟩ := Context.imported_subset_absorb taken
  have marked := s.context.imported_subset_markImported source.key
  refine ⟨⟨rfl, fun _ hkey => grown (marks (marked hkey)), ⟨source.path, source.text⟩ :: files,
    Entry.of (.plain t (.source source.path)) s.file :: c.program, ?_, ?_, ?_, ?_, ?_⟩, hs⟩
  · simpa [State.child, State.absorbed] using opened
  · simp [State.absorbed]
  · exact congrArg (source.path :: ·) same
  · exact .imports (.empty _) rfl rfl laidOut
  · exact ((Fresh.of_new isNew).append fresh marked marks).mono grown

end Follows

theorem Steps.follows (nested : s.Nested) (hs : s.Plain) (h : Steps settings s s') : s.Follows s' ∧ s'.Plain := by
  induction h with
  | refl => exact ⟨.refl _, hs⟩
  | step h h' ih =>
    obtain ⟨before, plain⟩ := ih nested hs
    obtain ⟨after, plain'⟩ := Follows.step (nested.steps h) plain h'
    exact ⟨before.trans after, plain'⟩
  | imports h bottom isNew inner _ _ taken ih ihChild =>
    obtain ⟨before, plain⟩ := ih nested hs
    obtain ⟨child, -⟩ := ihChild (.child _ _ _) nofun
    obtain ⟨after, plain'⟩ := Follows.imports (nested.steps h) plain bottom isNew child taken
    exact ⟨before.trans after, plain'⟩

/-- What holds at every moment of a compilation that begins with the file `path`: no file was opened twice, and
none that is imported from this file was marked when it was opened. -/
structure ImportsOnce (path text : String) (s : State) : Prop where
  first : s.session.files.head? = some ⟨path, text⟩
  opened : (s.session.files.map (sourceKey ·.name)).Nodup
  openedMarked : ∀ f ∈ s.session.files, sourceKey f.name ∈ s.context.imported
  entries : s.program.importKeys.Nodup
  entriesMarked : ∀ key ∈ s.program.importKeys, key ∈ s.context.imported
  root : sourceKey path ∉ s.program.importKeys
  own : sourceKey s.file ∉ s.program.importKeys
  ownMarked : sourceKey s.file ∈ s.context.imported
  laidOut : Program.LaidOut s.file s.program

namespace ImportsOnce

theorem start (library : Library) (path text : String) (last : Token) :
    (State.start library path text last).ImportsOnce path text where
  first := rfl
  opened := by simp [State.start]
  openedMarked := by simp [State.start, Context.initial, Context.markImported]
  entries := .nil
  entriesMarked := nofun
  root := nofun
  own := nofun
  ownMarked := by simp [State.start, Context.initial, Context.markImported]
  laidOut := .empty _

theorem rootMarked (hs : s.ImportsOnce path text) : sourceKey path ∈ s.context.imported := by
  obtain ⟨rest, hfiles⟩ := List.head?_eq_some_iff.mp hs.first
  exact hs.openedMarked ⟨path, text⟩ (by simp [hfiles])

theorem follows (hs : s.ImportsOnce path text) (h : s.Follows s') : s'.ImportsOnce path text := by
  obtain ⟨file, marks, files, p, opened, listed, same, laidOut, fresh⟩ := h
  have keys : files.map (sourceKey ·.name) = p.imports.map sourceKey := by
    rw [← same, map_map]
    rfl
  have freshFiles : Fresh s.context.imported s'.context.imported (files.map (sourceKey ·.name)) :=
    keys ▸ fresh.sublist p.map_imports_sublist
  -- A key that was marked is not imported again.
  have kept : ∀ {key}, key ∈ s.context.imported → key ∉ s.program.importKeys →
      key ∉ (s.program ++ p).importKeys := by
    intro key marked absent mem
    rw [Program.importKeys_append] at mem
    exact (mem_append.mp mem).elim absent fun new => fresh.new key new marked
  refine ⟨?_, ?_, ?_, ?_, ?_, ?_, ?_, ?_, ?_⟩
  · rw [opened, List.head?_append, hs.first]
    rfl
  · rw [opened, map_append]
    refine nodup_append.mpr ⟨hs.opened, freshFiles.nodup, ?_⟩
    rintro key old _ new rfl
    obtain ⟨f, hf, rfl⟩ := mem_map.mp old
    exact freshFiles.new _ new (hs.openedMarked f hf)
  · intro f hf
    rw [opened] at hf
    rcases mem_append.mp hf with old | new
    · exact marks (hs.openedMarked f old)
    · exact freshFiles.marked _ (mem_map.mpr ⟨f, new, rfl⟩)
  · rw [listed, Program.importKeys_append]
    refine nodup_append.mpr ⟨hs.entries, fresh.nodup, ?_⟩
    rintro key old _ new rfl
    exact fresh.new key new (hs.entriesMarked key old)
  · intro key hkey
    rw [listed, Program.importKeys_append] at hkey
    rcases mem_append.mp hkey with old | new
    · exact marks (hs.entriesMarked key old)
    · exact fresh.marked key new
  · rw [listed]
    exact kept hs.rootMarked hs.root
  · rw [listed, file]
    exact kept hs.ownMarked hs.own
  · rw [file]
    exact marks hs.ownMarked
  · rw [listed, file]
    exact hs.laidOut.append laidOut

theorem child (hs : s.ImportsOnce path text) {t last : Token}
    (isNew : (s.context.markImported source.key).1 = true) :
    ((s.noted t source).child source last).ImportsOnce path text := by
  obtain ⟨unmarked, marked⟩ := Context.marked_of_new isNew
  have session : (s.noted t source).session = s.session := emitted_session _ _
  have context : (s.noted t source).context = (s.context.markImported source.key).2 :=
    emitted_context _ _
  refine ⟨?_, ?_, ?_, .nil, nofun, nofun, nofun, ?_, .empty _⟩
  · simp only [State.child, session, List.head?_append, hs.first]
    rfl
  · simp only [State.child, session, map_append]
    refine nodup_append.mpr ⟨hs.opened, by simp, ?_⟩
    rintro key old _ new rfl
    obtain ⟨f, hf, rfl⟩ := mem_map.mp old
    have same : sourceKey f.name = sourceKey source.path := by simpa using new
    have known := hs.openedMarked f hf
    rw [same] at known
    exact unmarked known
  · intro f hf
    simp only [State.child, session, context, marked, mem_append, mem_singleton] at hf ⊢
    rcases hf with old | rfl
    · exact .inl (hs.openedMarked f old)
    · exact .inr rfl
  · change source.key ∈ (s.noted t source).context.imported
    rw [context, marked]
    exact mem_append_right _ (mem_singleton_self _)

theorem contiguous (hs : s.ImportsOnce path text) : s.program.Contiguous :=
  hs.laidOut.contiguous hs.entries hs.own

end ImportsOnce

end State

namespace Moment

open Parse

theorem importsOnce
    (h : Moment settings library path text fuel s toks) : s.ImportsOnce path text ∧ s.Plain := by
  refine invariant (P := fun s => s.ImportsOnce path text ∧ s.Plain) ?_ ?_ ?_ h
  · exact fun last => ⟨.start .., nofun⟩
  · intro s s' nested hs steps
    obtain ⟨follows, plain⟩ := steps.follows nested hs.2
    exact ⟨hs.1.follows follows, plain⟩
  · exact fun hs isNew => ⟨hs.1.child isNew, nofun⟩

end Moment

namespace Parse

/-- A file that is imported for the first time is read, if there is fuel for it. -/
def readSource (fuel : Nat) (t : Token) (source : Source) : Parse Unit :=
  match fuel with
  | 0 => fault .endlessImports
  | fuel + 1 => do
    let (program, context) ← readChild do
      let toks ← openFile source.path source.text
      tokens (importFile fuel) toks
    absorb t program context

theorem importFile_source (h : isHeader path = false) (t : Token) :
    importFile fuel t path settings s = match loadFile t path settings s with
      | .ok source s₁ =>
        if (s₁.context.markImported source.key).1 then
          readSource fuel t source settings (s₁.noted t source)
        else warn t (.imported path) settings
          { s₁ with context := (s₁.context.markImported source.key).2 }
      | .error e s₁ => .error e s₁ := by
  unfold importFile
  rw [h]
  change (loadFile t path >>= _) settings s = _
  rw [reading_bind]
  cases loadFile t path settings s with
  | error e s₁ => rfl
  | ok source s₁ =>
    dsimp only
    rw [reading_bind, markImported_eq]
    dsimp only
    cases (s₁.context.markImported source.key).1 with
    | false => rfl
    | true => cases fuel <;> rfl

theorem tokens_congr (himport : Imports False settings fuel importer)
    (agree : ∀ s : State, s.Ready False fuel → s.blocks = [] →
      ∀ t path, importer' t path settings s = importer t path settings s)
    (hs : s.Ready False fuel) (lexed : ∀ t ∈ toks, t.Lexed) :
    tokens importer' toks settings s = tokens importer toks settings s := by
  induction toks generalizing s with
  | nil => rfl
  | cons t toks ih =>
    have first : token importer' t settings s = token importer t settings s := by
      have taken : State.Steps settings s { s with buffer := [], afterBranch := false } :=
        .single (.idle s s.session.notices [] false (forall_mem_nil _))
      have proceeds : Proceeds False settings s _ _ :=
        token_proceeds hs.complete hs.nested hs.lexed (lexed t (.head _))
      cases proceeds with
      | alone same _ => exact same importer' importer
      | imports u path bottom asks =>
        rw [asks, asks, agree _ (hs.steps taken) bottom]
    rw [tokens, tokens, reading_bind, reading_bind, first]
    cases read : token importer t settings s with
    | error e s₁ => rfl
    | ok u s₁ =>
      have steps := (token_advances himport hs (lexed t (.head _))).of_ok read
      exact ih (hs.steps steps) fun u hu => lexed u (.tail _ hu)

theorem importFile_congr (hs : s.Ready False fuel) (t : Token) (path : String)
    (agree : ∀ (s₁ : State) (source : Source), s₁.Ready False fuel →
      (∀ files, s₁.session.library = .memory files → source.key ∈ Library.keys files) →
      (s₁.context.markImported source.key).1 = true → readSource fuel' t source settings (s₁.noted t source)
        = readSource fuel t source settings (s₁.noted t source)) :
    importFile fuel' t path settings s = importFile fuel t path settings s := by
  cases header : isHeader path with
  | true =>
    unfold importFile
    rw [header]
    rfl
  | false =>
    rw [importFile_source header, importFile_source header]
    cases found : loadFile t path settings s with
    | error e s₁ => rfl
    | ok source s₁ =>
      have loading : Ensures False settings s (loadFile t path) _ := loadFile_ensures t path
      obtain ⟨known, rfl⟩ := loading.of_ok found
      have loaded : State.Steps settings s _ := .single (.load s path)
      dsimp only
      split
      · next isNew =>
        exact agree _ source (hs.steps loaded) (fun files memory => key_mem_of_load known memory) isNew
      · rfl

theorem readChild_congr
    (same : x settings { session := s.session, context := s.context }
      = y settings { session := s.session, context := s.context }) :
    (readChild x >>= k) settings s = (readChild y >>= k) settings s := by
  have child : readChild x settings s = readChild y settings s := by
    unfold readChild
    rw [same]
  rw [reading_bind, reading_bind, child]

theorem importFile_fuel (more : Nat) (hs : s.Ready False fuel) (t : Token) (path : String) :
    importFile (fuel + more) t path settings s = importFile fuel t path settings s := by
  induction fuel generalizing s t path with
  | zero =>
    refine importFile_congr hs t path fun s₁ source ready known isNew => ?_
    -- A file that is new would leave less than no files unread.
    rcases ready.bounded with free | ⟨files, unread⟩
    · exact free.elim
    · exact absurd (unread.mark (known files unread.1) isNew) (Nat.not_lt_zero _)
  | succ n ih =>
    refine importFile_congr hs t path fun s₁ source ready known isNew => ?_
    rw [Nat.add_right_comm]
    refine readChild_congr ?_
    rw [reading_bind, reading_bind]
    have opening : Ensures False settings
      { session := (s₁.noted t source).session, context := (s₁.noted t source).context }
      (openFile source.path source.text) _ := openFile_ensures _ _ _
    cases opened : openFile source.path source.text settings
        { session := (s₁.noted t source).session, context := (s₁.noted t source).context } with
    | error e c => rfl
    | ok toks c =>
      obtain ⟨-, lexed, last, rfl⟩ := opening.of_ok opened
      exact tokens_congr (importFile_imports n) (fun s hs _ t path => ih hs t path)
        (ready_child ready known isNew t last) lexed

theorem mainFile_fuel (settings : Settings) (files : List (String × String)) (path text : String) (more : Nat) :
    mainFile ((Library.memory files).bound + 1 + more) path text settings (.unread (.memory files))
      = mainFile ((Library.memory files).bound + 1) path text settings (.unread (.memory files)) := by
  have bounded : False ∨ ∃ files', Library.memory files = .memory files' := .inr ⟨files, rfl⟩
  have imports : Imports False settings _ _ := importFile_imports ((Library.memory files).bound + 1)
  have agree : ∀ s : State, s.Ready False ((Library.memory files).bound + 1) → s.blocks = [] →
      ∀ t name, importFile ((Library.memory files).bound + 1 + more) t name settings s
        = importFile ((Library.memory files).bound + 1) t name settings s :=
    fun s hs _ t name => importFile_fuel more hs t name
  rw [mainFile_eq, mainFile_eq]
  cases opened : openMain path text settings (.unread (.memory files)) with
  | error e s => rfl
  | ok toks s =>
    have lexed := Moment.openFile_lexed opened
    obtain ⟨last, rfl⟩ := Moment.openMain_ok opened
    have ready := ready_start bounded path text last
    dsimp only
    rw [agree _ ready rfl, tokens_congr imports agree ready lexed]
    -- Which module is imported first does not matter.
    generalize Standard.builtinPath = builtin
    split
    · split
      · next read =>
        exact tokens_congr imports agree (ready.steps ((imports _ ready rfl _ _).of_ok read)) lexed
      · rfl
    · rfl

theorem importFile_again (fuel : Nat) (t : Token) (path : String) (settings : Settings) (s : State)
    (again : if isHeader path then sourceKey path ∈ s.context.imported
      else ∃ source, (s.session.library.load s.file path).1 = .ok source ∧ source.key ∈ s.context.imported) :
    ∃ s', importFile fuel t path settings s = .ok () s' ∧ s'.program = s.program ∧ s'.context = s.context := by
  have kept : ∀ {c : Context} {key : UInt64}, key ∈ c.imported → c.markImported key = (false, c) :=
    fun known => if_pos (by simpa using known)
  cases header : isHeader path with
  | true =>
    rw [header, if_pos rfl] at again
    refine ⟨s, ?_, rfl, rfl⟩
    unfold importFile
    rw [header, if_pos rfl, reading_bind, markImported_eq, kept again]
    rfl
  | false =>
    rw [header] at again
    obtain ⟨source, found, known⟩ := again
    have loaded : loadFile t path settings s = .ok source { s with session := { s.session with
        library := (s.session.library.load s.file path).2 } } := by
      have answer : s.session.library.load s.file path
          = (.ok source, (s.session.library.load s.file path).2) := Prod.ext found rfl
      unfold loadFile
      have got : (get : Parse State) settings s = .ok s s := rfl
      rw [reading_bind, got]
      dsimp only
      rw [answer]
      rfl
    rw [importFile_source header, loaded]
    dsimp only
    rw [kept known]
    exact ⟨_, rfl, rfl, rfl⟩

end Parse

/-- However the files of a library in memory import each other, a compilation ends: it never runs out of fuel, and
with more fuel it is the same. At every moment of it no file was opened twice, and no file or header has two
entries. If it ends with a program, the files that were opened are the main file and, once each and in this
order, those of the imports; the main file is not among them; and behind each import stand all entries of the
imported file. To import again what was imported before changes neither the program nor what is known. -/
theorem compile_importsOnce (settings : Settings) (files : List (String × String)) (path text : String) :
    (∀ more, Parse.mainFile ((Library.memory files).bound + 1 + more) path text settings
        { session := { library := .memory files }, context := .initial }
      = Parse.mainFile ((Library.memory files).bound + 1) path text settings
        { session := { library := .memory files }, context := .initial }) ∧
    (∀ f, (compile settings (.memory files) path text).stop ≠ some (.fault f)) ∧
    (∀ fuel s toks, Moment settings (.memory files) path text fuel s toks →
      s.ImportsOnce path text ∧ s.program.Contiguous) ∧
    ((compile settings (.memory files) path text).stop = none →
      ∃ opened, (compile settings (.memory files) path text).session.files
          = ⟨path, text⟩ :: opened ∧
        opened.map (·.name) = (compile settings (.memory files) path text).program.imports ∧
        (sourceKey path :: (compile settings (.memory files) path text).program.importKeys).Nodup ∧
        Program.LaidOut path (compile settings (.memory files) path text).program ∧
        (compile settings (.memory files) path text).program.Contiguous) ∧
    ∀ fuel t name s, (if isHeader name then sourceKey name ∈ s.context.imported
        else ∃ source, (s.session.library.load s.file name).1 = .ok source ∧
          source.key ∈ s.context.imported) →
      ∃ s', Parse.importFile fuel t name settings s = .ok () s' ∧ s'.program = s.program ∧
        s'.context = s.context := by
  have bounded : False ∨ ∃ files', Library.memory files = .memory files' := .inr ⟨files, rfl⟩
  have main : Parse.Ensures False settings _ _ _ := Parse.mainFile_ensures bounded path text
  refine ⟨Parse.mainFile_fuel settings files path text, ?_, ?_, ?_, ?_⟩
  · intro f stopped
    unfold compile at stopped
    cases read : Parse.mainFile ((Library.memory files).bound + 1) path text settings (.unread (.memory files)) with
    | ok u s => simp [read] at stopped
    | error e s =>
      obtain rfl : e = .fault f := by simpa [read] using stopped
      exact (main.of_error read).elim id fun h => h.1
  · intro fuel s toks moment
    exact ⟨moment.importsOnce.1, moment.importsOnce.1.contiguous⟩
  · unfold compile
    cases read : Parse.mainFile ((Library.memory files).bound + 1) path text settings (.unread (.memory files)) with
    | error e s => exact nofun
    | ok u s =>
      intro _
      obtain ⟨last, steps, -⟩ := main.of_ok read
      obtain ⟨follows, -⟩ := steps.follows (.start ..) nofun
      have once := (State.ImportsOnce.start (.memory files) path text last).follows follows
      obtain ⟨file, -, opened, p, hfiles, hprogram, same, laidOut, -⟩ := follows
      obtain rfl : s.program = p := hprogram
      refine ⟨opened, hfiles, same, ?_, laidOut, once.contiguous⟩
      exact nodup_cons.mpr ⟨once.root, once.entries⟩
  · exact fun fuel t name s again => Parse.importFile_again fuel t name settings s again

def cycleMain : String :=
  "@import \"a.imp\"; @import \"b.imp\"; @import \"c.h\"; main :: () { f(); g(); }"

/-- Files that import each other, themselves and the main file. -/
def cycleFiles : List (String × String) :=
  [("main.imp", cycleMain),
    ("a.imp", "@import \"b.imp\"; @import \"main.imp\"; @import \"c.h\"; f :: () { }"),
    ("b.imp", "@import \"a.imp\"; @import \"b.imp\"; g :: () { }")]

theorem compile_importsOnce_cycle :
    (compile Settings.plain (.memory cycleFiles) "main.imp" cycleMain).stop = none ∧
    (compile Settings.plain (.memory cycleFiles) "main.imp" cycleMain).program.imports = ["a.imp", "b.imp"] ∧
    (compile Settings.plain (.memory cycleFiles) "main.imp" cycleMain).program.Contiguous := by
  have accepted : (compile Settings.plain (.memory cycleFiles) "main.imp" cycleMain).stop.isNone
      = true := by decide +kernel
  obtain ⟨-, -, -, whole, -⟩ :=
    compile_importsOnce Settings.plain cycleFiles "main.imp" cycleMain
  have stop := Option.isNone_iff_eq_none.mp accepted
  obtain ⟨-, -, -, -, -, contiguous⟩ := whole stop
  exact ⟨stop, by decide +kernel, contiguous⟩

end Impulse
