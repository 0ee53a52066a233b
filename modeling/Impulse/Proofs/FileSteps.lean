import Impulse.Proofs.TokenSteps

/-!
# What reading a file does

The tokens of a file end with the end of the file, so a reading that comes to its end leaves nothing open. A
file is read at most once: its key is marked before it is read. In a library in memory there are finitely many
keys, so imports nest no deeper than the number of files, and the bound on their depth is never reached.
-/

namespace Impulse

open List

variable {library : Library} {source : Source}

/-- The last token, if all tokens could be read, is the end of the file. -/
def Token.Ended (toks : List Token) : Prop :=
  ∃ body final, toks = body ++ [final] ∧ final.kind = .endOfFile

theorem Tokens.scan_ends (comments : Bool) (file : Nat) (p : Place) (cs : List Char) :
    (scan comments file p cs).failure = none → Token.Ended (scan comments file p cs).tokens := by
  fun_induction scan comments file p cs with
  | case1 => exact fun _ => ⟨[], _, rfl, rfl⟩
  | case2 =>
    intro failed
    cases failed
  | case3 p cs blanks p' c rest h lexeme read token ih =>
    intro whole
    obtain ⟨body, final, htokens, hfinal⟩ := ih whole
    exact ⟨token :: body, final, congrArg (token :: ·) htokens, hfinal⟩

namespace Library

def keys (files : List (String × String)) : List UInt64 :=
  (files ++ Standard.files).map fun file => sourceKey file.1

def unread (files : List (String × String)) (imported : List UInt64) : Nat :=
  ((keys files).filter (!imported.contains ·)).length

theorem unread_le_bound (files : List (String × String)) (imported : List UInt64) :
    unread files imported ≤ (memory files).bound := by
  have kept : unread files imported ≤ (keys files).length := length_filter_le _ _
  simpa [keys, bound] using kept

theorem unread_le_of_subset (files : List (String × String))
    (h : imported ⊆ more) : unread files more ≤ unread files imported := by
  unfold unread
  rw [← countP_eq_length_filter, ← countP_eq_length_filter]
  refine countP_mono_left fun key _ hkey => ?_
  simp only [Bool.not_eq_true', contains_eq_mem, decide_eq_false_iff_not] at hkey ⊢
  exact fun marked => hkey (h marked)

theorem unread_mark_lt (known : key ∈ keys files) (isNew : imported.contains key = false) :
    unread files (imported ++ [key]) < unread files imported := by
  have split : (keys files).filter (!(imported ++ [key]).contains ·)
      = ((keys files).filter (!imported.contains ·)).filter (· != key) := by
    rw [filter_filter]
    refine filter_congr fun x _ => ?_
    simp [Bool.not_or, bne, Bool.beq_eq_decide_eq, Bool.and_comm]
  unfold unread
  rw [split]
  refine length_filter_lt_length_iff_exists.mpr ⟨key, ?_, by simp⟩
  simpa [mem_filter, known] using isNew

theorem key_mem_keys
    (h : loadMemory files importer path = .ok source) : source.key ∈ keys files := by
  unfold loadMemory at h
  dsimp only at h
  split at h
  · next p text found =>
    cases h
    obtain ⟨q, -, hq⟩ := exists_of_findSome?_eq_some found
    refine mem_map.mpr ⟨(p, text), ?_, rfl⟩
    exact mem_append_left _ (mem_of_find?_eq_some hq)
  · split at h
    · next text found =>
      cases h
      split at found
      · obtain ⟨file, hfile, rfl⟩ := Option.map_eq_some_iff.mp found
        have named := List.find?_some hfile
        refine mem_map.mpr ⟨file, mem_append_right _ (mem_of_find?_eq_some hfile), ?_⟩
        rw [beq_iff_eq.mp named]
        rfl
      · cases found
    · cases h

end Library

theorem Context.imported_subset_markImported (c : Context) (key : UInt64) :
    c.imported ⊆ (c.markImported key).2.imported := by
  unfold Context.markImported
  split
  · exact List.Subset.refl _
  · exact subset_append_left _ _

theorem Context.imported_absorb {c child merged : Context} (taken : c.absorb child = (merged, none)) :
    merged.imported = c.imported ++ child.imported.filter fun key => !c.imported.contains key := by
  unfold Context.absorb at taken
  dsimp only at taken
  split at taken
  · cases taken
  · split at taken
    · cases taken
    · split at taken
      · cases taken
      · split at taken
        · cases taken
        · cases taken
          rfl

theorem Context.imported_subset_absorb {c child merged : Context} (h : c.absorb child = (merged, none)) :
    c.imported ⊆ merged.imported ∧ child.imported ⊆ merged.imported := by
  rw [Context.imported_absorb h]
  refine ⟨subset_append_left _ _, fun key hkey => ?_⟩
  by_cases known : key ∈ c.imported
  · exact mem_append_left _ known
  · exact mem_append_right _ (mem_filter.mpr ⟨hkey, by simpa using known⟩)

namespace State

variable {s s' : State}

theorem Declares.keeps_marked (h : s.Declares x s') :
    s'.session = s.session ∧ s'.context.imported = s.context.imported ∧ s'.buffer = s.buffer := by
  cases h <;> exact ⟨rfl, rfl, rfl⟩

theorem registered_imported (c : Context) (sig : Signature) (file : String) :
    (c.registered sig file).imported = c.imported := by
  unfold Context.registered
  dsimp only
  split <;> rfl

/-- The library is in memory, and at most `fuel` of its files are unread. -/
def Unread (files : List (String × String)) (fuel : Nat) (s : State) : Prop :=
  s.session.library = .memory files ∧ Library.unread files s.context.imported ≤ fuel

/-- A change opens no file, forgets no mark, leaves a library in memory as it is, and adds only tokens of a text to
those that wait. -/
theorem Step.keeps_marked (h : Step settings s s') :
    s'.session.files = s.session.files ∧ s.context.imported ⊆ s'.context.imported ∧
      (∀ files, s.session.library = .memory files → s'.session.library = .memory files) ∧
      ∀ t ∈ s'.buffer, t ∈ s.buffer ∨ t.Lexed := by
  have same : ∀ {s' : State},
      s'.session = s.session ∧ s'.context.imported = s.context.imported ∧ s'.buffer = s.buffer →
      s'.session.files = s.session.files ∧ s.context.imported ⊆ s'.context.imported ∧
      (∀ files, s.session.library = .memory files → s'.session.library = .memory files) ∧
      ∀ t ∈ s'.buffer, t ∈ s.buffer ∨ t.Lexed := by
    rintro s' ⟨session, imported, buffer⟩
    rw [session, imported, buffer]
    exact ⟨rfl, List.Subset.refl _, fun _ library => library, fun _ => .inl⟩
  cases h with
  | idle _ _ _ lexed => exact ⟨rfl, List.Subset.refl _, fun _ library => library, lexed⟩
  | load path =>
    refine ⟨rfl, List.Subset.refl _, fun files library => ?_, fun _ => .inl⟩
    dsimp only
    rw [library]
    rfl
  | mark key =>
    exact ⟨rfl, s.context.imported_subset_markImported key, fun _ library => library, fun _ => .inl⟩
  | header t path =>
    rw [emitted_context, emitted_session, emitted_buffer]
    exact ⟨rfl, s.context.imported_subset_markImported _, fun _ library => library, fun _ => .inl⟩
  | write | result | closeOther => exact same (by simp)
  | declare _ h => exact same h.keeps_marked
  | define _ h => exact same (by simpa using h.keeps_marked)
  | begin => exact same (by simp [State.opened])
  | loop _ _ _ _ _ _ _ counts _ =>
    cases counts with
    | known => exact same (by simp [State.opened])
    | introduced _ h => exact same (by simpa [State.opened] using h.keeps_marked)
  | defer | structField | enumField | closeStruct | closeDeferred => exact same ⟨rfl, rfl, rfl⟩
  | fields => exact same (by simp [State.finishedFields])
  | function => exact same (by simp [State.entered, State.opened, registered_imported])
  | struct | enum => exact same (by simp [State.recorded, State.opened])
  | closeEnum => exact same (by simp [State.finishedEnum])

theorem Unread.step (hs : s.Unread files fuel) (h : Step settings s s') : s'.Unread files fuel := by
  obtain ⟨-, marked, library, -⟩ := h.keeps_marked
  exact ⟨library files hs.1, Nat.le_trans (Library.unread_le_of_subset files marked) hs.2⟩

theorem Unread.steps (hs : s.Unread files fuel) (h : Steps settings s s') : s'.Unread files fuel := by
  have noted : ∀ {s : State} {t : Token} {source : Source}, s.Unread files fuel →
      (s.noted t source).Unread files fuel := by
    intro s t source hs
    have step : Step settings s _ := .mark s source.key
    have marked := hs.step step
    exact ⟨by simpa [State.noted] using marked.1, by simpa [State.noted] using marked.2⟩
  refine Steps.invariant (fun hs h => hs.step h) ?_ ?_ h hs
  · intro s t source last hs _
    exact ⟨(noted hs).1, (noted hs).2⟩
  · intro s t source last c merged hs _ _ hc _ taken
    have hnoted : (s.noted t source).Unread files fuel := noted hs
    refine ⟨hc.1, Nat.le_trans ?_ hnoted.2⟩
    exact Library.unread_le_of_subset files (Context.imported_subset_absorb taken).1

theorem Unread.mark (hs : s.Unread files fuel) (known : key ∈ Library.keys files)
    (isNew : (s.context.markImported key).1 = true) :
    Library.unread files (s.context.markImported key).2.imported < fuel := by
  unfold Context.markImported at isNew ⊢
  split at isNew
  · cases isNew
  · next fresh =>
    rw [if_neg fresh]
    exact Nat.lt_of_lt_of_le (Library.unread_mark_lt known (by simpa using fresh)) hs.2

/-- The names among the tokens that wait hold no arrows. -/
def Lexed (s : State) : Prop :=
  ∀ t ∈ s.buffer, t.Lexed

theorem Lexed.step (hs : s.Lexed) (h : Step settings s s') : s'.Lexed :=
  fun t ht => (h.keeps_marked.2.2.2 t ht).elim (hs t) id

theorem Lexed.steps (hs : s.Lexed) (h : Steps settings s s') : s'.Lexed := by
  refine Steps.invariant (fun hs h => hs.step h) ?_ ?_ h hs
  · exact fun _ _ => forall_mem_nil _
  · intro s t source last c merged hs _ _ _ _ _ u hu
    exact hs u (by simpa [State.absorbed, State.noted] using hu)

/-- What holds wherever the reading of a file goes on: known types are complete, open blocks fit to the rest of
the state, names hold no arrows, and at most `fuel` files are unread, unless imports may nest without a bound. -/
structure Ready (unbounded : Prop) (fuel : Nat) (s : State) : Prop where
  complete : s.Complete
  nested : s.Nested
  lexed : s.Lexed
  bounded : unbounded ∨ ∃ files, s.Unread files fuel

theorem Ready.steps (hs : s.Ready unbounded fuel)
    (h : Steps settings s s') : s'.Ready unbounded fuel := by
  refine ⟨hs.complete.steps h, hs.nested.steps h, hs.lexed.steps h, ?_⟩
  rcases hs.bounded with free | ⟨files, unread⟩
  · exact .inl free
  · exact .inr ⟨files, unread.steps h⟩

end State

namespace Parse

variable {s : State}

/-- The importer makes changes wherever a file can be imported. -/
def Imports (unbounded : Prop) (settings : Settings) (fuel : Nat) (importer : Importer) : Prop :=
  ∀ s : State, s.Ready unbounded fuel → s.blocks = [] →
    ∀ t path, Advances unbounded settings s (importer t path)

theorem token_advances (himport : Imports unbounded settings fuel importer) (hs : s.Ready unbounded fuel)
    (lexed : t.Lexed) : Advances unbounded settings s (token importer t) := by
  have taken : State.Steps settings s { s with buffer := [], afterBranch := false } :=
    .single (.idle s s.session.notices [] false (forall_mem_nil _))
  refine (token_proceeds hs.complete hs.nested hs.lexed lexed).advances taken rfl fun u path bottom => ?_
  exact himport _ (hs.steps taken) bottom u path

theorem tokens_ensures (himport : Imports unbounded settings fuel importer)
    (hs : s.Ready unbounded fuel) (ended : Token.Ended toks) (lexed : ∀ t ∈ toks, t.Lexed) :
    Ensures unbounded settings s (tokens importer toks) fun _ s' =>
      State.Steps settings s s' ∧ s'.blocks = [] ∧ s'.buffer = [] := by
  obtain ⟨body, final, rfl, hfinal⟩ := ended
  induction body generalizing s with
  | nil =>
    have finished : Ensures unbounded settings s (token importer final) fun _ s' =>
        s' = s ∧ s.blocks = [] ∧ s.buffer = [] := by
      unfold token Token.isTrivia
      rw [hfinal]
      exact .finishFile fun buffer blocks => ⟨rfl, blocks, buffer⟩
    refine finished.bind fun _ s' h => ?_
    obtain ⟨rfl, blocks, buffer⟩ := h
    exact .pure ⟨.refl _, blocks, buffer⟩
  | cons t body ih =>
    refine (token_advances himport hs (lexed t (.head _))).bind fun _ s₁ h₁ => ?_
    refine (ih (hs.steps h₁) fun u hu => lexed u (.tail _ hu)).mono fun _ s₂ h₂ => ?_
    exact ⟨h₁.trans h₂.1, h₂.2⟩

theorem openFile_ensures (s : State) (path text : String) :
    Ensures unbounded settings s (openFile path text) fun toks s' =>
      Token.Ended toks ∧ (∀ t ∈ toks, t.Lexed) ∧ ∃ last, s' = { s with
        session := { s.session with files := s.session.files ++ [⟨path, text⟩] }
        file := path
        last := last } := by
  unfold openFile
  refine .get (.read ?_)
  refine .change_bind (g := fun _ => _) rfl ?_
  split
  · exact .fail trivial
  · next whole => exact .pure ⟨Tokens.scan_ends _ _ _ _ whole, Tokens.scan_lexed _ _ _ _, _, rfl⟩

theorem markImported_eq (key : UInt64) (settings : Settings) (s : State) :
    markImported key settings s = .ok (s.context.markImported key).1
      { s with context := (s.context.markImported key).2 } :=
  rfl

theorem Ensures.markImported
    (hk : Ensures unbounded settings { s with context := (s.context.markImported key).2 }
      (k (s.context.markImported key).1) post) :
    Ensures unbounded settings s (Parse.markImported key >>= k) post := by
  unfold Ensures
  rw [reading_bind, markImported_eq]
  exact hk

theorem loadFile_ensures (t : Token) (path : String) :
    Ensures unbounded settings s (loadFile t path) fun source s' =>
      (s.session.library.load s.file path).1 = .ok source ∧
      s' = { s with session := { s.session with
        library := (s.session.library.load s.file path).2 } } := by
  unfold loadFile
  refine .get ?_
  dsimp only
  refine .change_bind (g := fun _ => _) rfl ?_
  split
  · next source found => exact .pure ⟨found, rfl⟩
  · exact .fail trivial

theorem Ensures.readChild {mid : State → Prop}
    (hx : Ensures unbounded settings { session := s.session, context := s.context } x fun _ c => mid c)
    (hk : ∀ c, mid c → Ensures unbounded settings { s with session := c.session } (k (c.program, c.context)) post) :
    Ensures unbounded settings s (Parse.readChild x >>= k) post := by
  have child : Ensures unbounded settings s (Parse.readChild x) fun r s' =>
      ∃ c, mid c ∧ r = (c.program, c.context) ∧ s' = { s with session := c.session } := by
    unfold Ensures at hx ⊢
    unfold Parse.readChild
    cases hr : x settings { session := s.session, context := s.context } with
    | ok u c =>
      rw [hr] at hx
      exact ⟨⟨c, hx.1, rfl, rfl⟩, hx.2⟩
    | error e c =>
      rw [hr] at hx
      exact hx
  refine child.bind fun r s' h => ?_
  obtain ⟨c, hc, rfl, rfl⟩ := h
  exact hk c hc

theorem Ensures.absorb
    (h : ∀ merged, s.context.absorb context = (merged, none) →
      post () { s with program := s.program ++ program, context := merged }) :
    Ensures unbounded settings s (Parse.absorb t program context) post := by
  unfold Parse.absorb
  refine .get ?_
  dsimp only
  refine .change_bind (g := fun _ => _) rfl ?_
  split
  · exact .fail trivial
  · next whole =>
    refine .pure (h _ ?_)
    rw [← whole]

theorem readImported_advances (ih : Imports unbounded settings n (importFile n)) (bottom : s.blocks = [])
    (isNew : (s.context.markImported source.key).1 = true)
    (ready : ∀ last, ((s.noted t source).child source last).Ready unbounded n) :
    Ensures unbounded settings (s.noted t source) (do
      let (program, context) ← readChild do
        let toks ← openFile source.path source.text
        tokens (importFile n) toks
      absorb t program context) fun _ s' => State.Steps settings s s' := by
  have child : Ensures unbounded settings
      { session := (s.noted t source).session, context := (s.noted t source).context }
      (do
        let toks ← openFile source.path source.text
        tokens (importFile n) toks) fun _ c =>
      ∃ last, State.Steps settings ((s.noted t source).child source last) c ∧
        c.blocks = [] ∧ c.buffer = [] := by
    refine (openFile_ensures _ _ _).bind fun toks s₁ h => ?_
    obtain ⟨ended, lexed, last, rfl⟩ := h
    exact (tokens_ensures ih (ready last) ended lexed).mono fun _ c h => ⟨last, h⟩
  refine .readChild child fun c ⟨last, inner, done, read⟩ => ?_
  refine .absorb fun merged taken => ?_
  exact .imports (.refl s) bottom isNew inner done read taken

theorem ready_child (hs : s.Ready unbounded (n + 1))
    (known : ∀ files, s.session.library = .memory files → source.key ∈ Library.keys files)
    (isNew : (s.context.markImported source.key).1 = true) (t last : Token) :
    ((s.noted t source).child source last).Ready unbounded n := by
  refine ⟨hs.complete.child t source last, .child _ source last, forall_mem_nil _, ?_⟩
  rcases hs.bounded with free | ⟨files, unread⟩
  · exact .inl free
  · have fewer := unread.mark (known files unread.1) isNew
    refine .inr ⟨files, ?_, ?_⟩
    · simpa [State.child, State.noted] using unread.1
    · simpa [State.child, State.noted] using Nat.le_of_lt_succ fewer

theorem importSource_advances
    (ih : ∀ n, fuel = n + 1 → Imports unbounded settings n (importFile n))
    (hs : s.Ready unbounded fuel) (bottom : s.blocks = []) (t : Token) (path : String)
    (known : ∀ files, s.session.library = .memory files → source.key ∈ Library.keys files) :
    Advances unbounded settings s (do
      if ← markImported source.key then
        emit (.plain t (.source source.path))
        match fuel with
        | 0 => fault .endlessImports
        | fuel + 1 =>
          let (program, context) ← readChild do
            let toks ← openFile source.path source.text
            tokens (importFile fuel) toks
          absorb t program context
      else warn t (.imported path)) := by
  unfold Advances
  refine .markImported (.ite (fun isNew => .emit_bind ?_) fun _ => ?_)
  · cases fuel with
    | zero =>
      rcases hs.bounded with free | ⟨files, unread⟩
      · exact ⟨.inr ⟨free, rfl⟩, .refl _⟩
      · exact absurd (unread.mark (known files unread.1) isNew) (Nat.not_lt_zero _)
    | succ n =>
      exact readImported_advances (ih n rfl) bottom isNew fun last =>
        ready_child hs known isNew t last
  · have marked : State.Steps settings s _ := .single (.mark s source.key)
    exact .warn (by trivial) fun notices => marked.trans (.noticed (.refl _))

theorem key_mem_of_load {importer path : String} (found : (library.load importer path).1 = .ok source)
    (memory : (library.load importer path).2 = .memory files) : source.key ∈ Library.keys files := by
  cases library with
  | memory files' =>
    cases memory
    exact Library.key_mem_keys found
  | disk d => cases memory

theorem importFile_advances (ih : ∀ n, fuel = n + 1 → Imports unbounded settings n (importFile n)) :
    Imports unbounded settings fuel (importFile fuel) := by
  intro s hs bottom t path
  unfold importFile Advances
  refine .ite (fun _ => ?_) fun _ => ?_
  · refine .markImported ?_
    have marked : State.Step settings s _ := .mark s (sourceKey path)
    refine .ite (fun isNew => ?_) fun _ => .pure (.single marked)
    exact .emit (.single (.header t path bottom isNew))
  · refine (loadFile_ensures t path).bind fun source s₁ h => ?_
    obtain ⟨found, rfl⟩ := h
    have loaded : State.Steps settings s _ := .single (.load s path)
    refine (importSource_advances ih (hs.steps loaded) bottom t path ?_).mono fun _ s' h =>
      loaded.trans h
    exact fun files memory => key_mem_of_load found memory

/-- Imports make changes. A file that is read for the first time leaves one file fewer to be read, so there is
fuel for the files it imports. -/
theorem importFile_imports (fuel : Nat) : Imports unbounded settings fuel (importFile fuel) := by
  induction fuel with
  | zero => exact importFile_advances fun n h => nomatch h
  | succ fuel ih =>
    refine importFile_advances fun n h => ?_
    obtain rfl := Nat.succ.inj h
    exact ih

end Parse

def State.start (library : Library) (path text : String) (last : Token) : State :=
  { session := { files := [⟨path, text⟩], library := library }
    context := (Context.initial.markImported (sourceKey path)).2
    file := path
    last := last }

theorem State.Nested.start (library : Library) (path text : String) (last : Token) :
    (State.start library path text last).Nested :=
  ⟨.empty, rfl, by simp [State.start], .nil _⟩

theorem State.not_knows_start (library : Library) (path text : String) (last : Token) (x : Variable) :
    ¬(State.start library path text last).Knows x := by
  rintro (⟨found⟩ | ⟨mem, visible⟩)
  · simp only [State.start, Context.markImported_imported] at found
    cases found
  · obtain rfl := mem_singleton.mp mem
    cases visible

theorem State.not_hasField_start (library : Library) (path text : String) (last : Token) (a : String) (f : Param) :
    ¬(State.start library path text last).HasField a f := by
  rintro (⟨found, -⟩ | ⟨isOpen, -⟩)
  · simp only [State.start, Context.markImported_imported] at found
    cases found
  · cases isOpen

theorem State.Complete.start (library : Library) (path text : String) (last : Token) :
    (State.start library path text last).Complete := by
  refine .of_parts ?_ (fun x known => ?_) (fun a f has => ?_) (by rintro f ⟨⟩) (by rintro b ⟨⟩)
  · simpa [State.start] using Context.complete_initial.functions
  · exact (not_knows_start library path text last x known).elim
  · exact (not_hasField_start library path text last a f has).elim

namespace Parse

theorem ready_start (h : unbounded ∨ ∃ files, library = .memory files) (path text : String) (last : Token) :
    (State.start library path text last).Ready unbounded (library.bound + 1) := by
  refine ⟨.start _ _ _ _, .start _ _ _ _, forall_mem_nil _, h.imp id ?_⟩
  rintro ⟨files, rfl⟩
  exact ⟨files, rfl, Nat.le_succ_of_le (Library.unread_le_bound files _)⟩

theorem mainFile_ensures (bounded : unbounded ∨ ∃ files, library = .memory files) (path text : String) :
    Ensures unbounded settings (.unread library) (mainFile (library.bound + 1) path text) fun _ s' =>
      ∃ last, State.Steps settings (.start library path text last) s' ∧
        s'.blocks = [] ∧ s'.buffer = [] := by
  unfold mainFile
  refine .markImported ((openFile_ensures _ _ _).bind fun toks s₀ h => .read ?_)
  obtain ⟨ended, lexed, last, rfl⟩ := h
  have ready := ready_start bounded path text last
  have imports : Imports unbounded settings _ _ := importFile_imports (library.bound + 1)
  -- Which module is imported first does not matter.
  generalize Standard.builtinPath = builtin
  refine .ite (fun _ => .get ?_) fun _ => ?_
  · refine (imports _ ready rfl _ _).bind fun _ s₁ h₁ => ?_
    refine (tokens_ensures imports (ready.steps h₁) ended lexed).mono fun _ s₂ h₂ => ?_
    exact ⟨last, h₁.trans h₂.1, h₂.2⟩
  · exact (tokens_ensures imports ready ended lexed).mono fun _ s₁ h₁ => ⟨last, h₁⟩

end Parse

/-- The settings without the builtin module. -/
def Settings.plain : Settings :=
  ({} : Settings).setFeature .builtin false

theorem mainFile_of_accepted (accepted : (compile settings library path text).stop = none) :
    ∃ s, Parse.mainFile (library.bound + 1) path text settings (.unread library) = .ok () s ∧
      compile settings library path text = ⟨none, s.program, s.context, s.session⟩ := by
  unfold compile at accepted ⊢
  cases read : Parse.mainFile (library.bound + 1) path text settings (.unread library) with
  | ok u s => exact ⟨s, rfl, rfl⟩
  | error e s =>
    rw [read] at accepted
    cases accepted

theorem compile_ok (accepted : (compile settings library path text).stop = none) :
    ∃ last s, State.Steps settings (.start library path text last) s ∧ s.blocks = [] ∧
      (compile settings library path text).program = s.program ∧
      (compile settings library path text).context = s.context := by
  have main : Parse.Ensures True settings (.unread library) _ _ := Parse.mainFile_ensures (.inl trivial) path text
  obtain ⟨s, read, found⟩ := mainFile_of_accepted accepted
  obtain ⟨last, steps, blocks, -⟩ := main.of_ok read
  rw [found]
  exact ⟨last, s, steps, blocks, rfl, rfl⟩

end Impulse
