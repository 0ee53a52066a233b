import Impulse.Proofs.FileSteps

/-!
# Every reading is balanced and never fails

A reading of files in memory ends with a program or with a problem that can be reported. The reason is an
invariant: before every token of every file, the main file and the imported ones, the frames of the scope, the
open function, the open record and the group that is being deferred are those of the open blocks.
-/

namespace Impulse

/-- What is open besides the blocks is what belongs to the open blocks. Blocks are listed innermost first, so the
depth of a block is one more than the number of blocks behind it. -/
structure State.Balanced (s : State) : Prop where
  frames : s.scope.depth = (s.blocks.filter (·.framed)).length
  function : s.function.isSome = s.blocks.any (·.kind = .function)
  depth : ∀ f inner b outer, s.function = some f → s.blocks = inner ++ b :: outer →
    b.kind = .function → f.depth = outer.length + 1
  record : s.record.isSome = s.blocks.any fun b => b.kind = .struct || b.kind = .enum
  recording : s.deferral.isRecording = s.blocks.any (·.kind = .deferred)

namespace Nesting

variable (h : Nesting blocks f r recording)
include h

theorem any_function : blocks.any (·.kind = .function) = f.isSome := by
  induction h with
  | empty => rfl
  | @record b r kind =>
    have : b.kind ≠ .function := by
      rw [kind]
      cases r <;> exact nofun
    simp [this]
  | function _ kind => simp [kind]
  | control _ kind _ ih => simpa [(BlockKind.of_isControl kind).1] using ih
  | deferred _ kind _ ih => simpa [kind] using ih

theorem any_record : (blocks.any fun b => b.kind = .struct || b.kind = .enum) = r.isSome := by
  induction h with
  | empty => rfl
  | @record b r kind => cases r <;> simp [kind, Record.kind]
  | function _ kind _ _ ih | deferred _ kind _ ih => simpa [kind] using ih
  | control _ kind _ ih =>
    obtain ⟨-, noStruct, noEnum, -⟩ := BlockKind.of_isControl kind
    simpa [noStruct, noEnum] using ih

theorem depth_eq {inner} (hf : f = some g)
    (hblocks : blocks = inner ++ b :: outer) (kind : b.kind = .function) : g.depth = outer.length + 1 := by
  -- The block of the function is the innermost block, or it lies further out.
  induction h generalizing inner with
  | empty | record => cases hf
  | function outerNesting _ _ depth =>
    cases hf
    cases inner with
    | nil =>
      cases hblocks
      exact depth
    | cons b' inner =>
      cases hblocks
      have none := outerNesting.any_function
      simp [kind] at none
  | control _ hkind _ ih =>
    cases inner with
    | nil =>
      cases hblocks
      exact absurd kind (BlockKind.of_isControl hkind).1
    | cons b' inner =>
      cases hblocks
      exact ih hf rfl
  | deferred _ hkind _ ih =>
    cases inner with
    | nil =>
      cases hblocks
      rw [hkind] at kind
      cases kind
    | cons b' inner =>
      cases hblocks
      exact ih hf rfl

end Nesting

namespace State.Nested

variable {s : State}

theorem balanced (hs : s.Nested) : s.Balanced where
  frames := hs.frames
  function := hs.nesting.any_function.symm
  depth _ _ _ _ hf hblocks kind := hs.nesting.depth_eq hf hblocks kind
  record := hs.nesting.any_record.symm
  recording := hs.nesting.any_deferred.symm

theorem of_blocks_nil (hs : s.Nested) (bottom : s.blocks = []) :
    s.function = none ∧ s.record = none ∧ s.scope.depth = 0 ∧ s.deferral.recording = none ∧ s.deferral.groups = [] := by
  have nesting := hs.nesting
  rw [bottom] at nesting
  obtain ⟨outside, noRecord, direct⟩ := nesting.of_nil
  refine ⟨outside, noRecord, ?_, by simpa [Deferral.isRecording] using direct, ?_⟩
  · rw [hs.frames, bottom]
    rfl
  · refine List.eq_nil_iff_forall_not_mem.mpr fun g hg => ?_
    obtain ⟨f, hf, -⟩ := hs.groups g hg
    rw [outside] at hf
    cases hf

end State.Nested

namespace Parse

/-- Importing `path` in the state `s` finds a file that is new, and begins to read its tokens `toks` in the
state `c`. -/
def Enters (settings : Settings) (t : Token) (path : String) (s : State) (toks : List Token)
    (c : State) : Prop :=
  isHeader path = false ∧ ∃ source s₁ s₂ s₃, loadFile t path settings s = .ok source s₁ ∧
    markImported source.key settings s₁ = .ok true s₂ ∧
    emit (.plain t (.source source.path)) settings s₂ = .ok () s₃ ∧
    openFile source.path source.text settings { session := s₃.session, context := s₃.context }
      = .ok toks c

def openMain (path text : String) : Parse (List Token) := do
  let _ ← markImported (sourceKey path)
  openFile path text

def builtinToken (s : State) : Token :=
  ⟨.endOfFile, "", s.session.files.length - 1, 1, 1, 0⟩

theorem mainFile_eq (fuel : Nat) (path text : String) (settings : Settings) (s : State) :
    mainFile fuel path text settings s = match openMain path text settings s with
      | .ok toks s₁ =>
        if settings.feature .builtin then
          match importFile fuel (builtinToken s₁) Standard.builtinPath settings s₁ with
          | .ok _ s₂ => tokens (importFile fuel) toks settings s₂
          | .error e s₂ => .error e s₂
        else tokens (importFile fuel) toks settings s₁
      | .error e s₁ => .error e s₁ := by
  have split : mainFile fuel path text settings s =
      (openMain path text >>= fun toks => do
        if (← MonadReader.read).feature .builtin then
          importFile fuel (builtinToken (← get)) Standard.builtinPath
        tokens (importFile fuel) toks) settings s := rfl
  rw [split, reading_bind]
  cases openMain path text settings s with
  | error e s₁ => rfl
  | ok toks s₁ =>
    change (if settings.feature .builtin = true then get >>= fun s =>
        importFile fuel (builtinToken s) Standard.builtinPath >>= fun _ =>
        tokens (importFile fuel) toks
      else tokens (importFile fuel) toks) settings s₁ = _
    cases settings.feature .builtin with
    | false => rfl
    | true =>
      rw [if_pos rfl]
      change (importFile fuel (builtinToken s₁) Standard.builtinPath >>= fun _ =>
        tokens (importFile fuel) toks) settings s₁ = _
      rw [reading_bind]
      simp only [if_true]
      cases importFile fuel (builtinToken s₁) Standard.builtinPath settings s₁ <;> rfl

end Parse

open Parse in
/-- The moments of reading a program: `Moment … fuel s toks` says that in some file the tokens `toks` are about to
be read in the state `s`. Imports may nest `fuel` files deep from there. -/
inductive Moment (settings : Settings) (library : Library) (path text : String) :
    Nat → State → List Token → Prop
  /-- The first token of the builtin module. -/
  | builtin {toks toks' : List Token} {s c : State}
      (opened : openMain path text settings
        { session := { library := library }, context := .initial } = .ok toks s)
      (on : settings.feature .builtin = true)
      (enters : Enters settings (builtinToken s) Standard.builtinPath s toks' c) :
      Moment settings library path text library.bound c toks'
  /-- The first token of the main file, behind the builtin module. -/
  | mainBehind {toks : List Token} {s s' : State}
      (opened : openMain path text settings
        { session := { library := library }, context := .initial } = .ok toks s)
      (on : settings.feature .builtin = true)
      (read : importFile (library.bound + 1) (builtinToken s) Standard.builtinPath settings s
        = .ok () s') :
      Moment settings library path text (library.bound + 1) s' toks
  /-- The first token of the main file, without the builtin module. -/
  | main {toks : List Token} {s : State}
      (opened : openMain path text settings
        { session := { library := library }, context := .initial } = .ok toks s)
      (off : settings.feature .builtin = false) :
      Moment settings library path text (library.bound + 1) s toks
  /-- The next token of the same file. -/
  | next {fuel : Nat} {t : Token} {toks : List Token} {s s' : State}
      (h : Moment settings library path text fuel s (t :: toks))
      (read : token (importFile fuel) t settings s = .ok () s') :
      Moment settings library path text fuel s' toks
  /-- The first token of a file that is imported at a token. -/
  | imported {fuel : Nat} {t arg : Token} {name : String} {toks toks' : List Token} {s s₁ c : State}
      (h : Moment settings library path text (fuel + 1) s (t :: toks))
      (asks : ∀ importer : Importer, token importer t settings s = importer arg name settings s₁)
      (enters : Enters settings arg name s₁ toks' c) :
      Moment settings library path text fuel c toks'

namespace Moment

open Parse

theorem child_of_enters (h : Enters settings t name s toks c) :
    ∃ s₁ source last, State.Step settings s s₁ ∧ c = (s₁.noted t source).child source last ∧
      (s₁.context.markImported source.key).1 = true ∧
      ∀ files, s₁.session.library = .memory files → source.key ∈ Library.keys files := by
  obtain ⟨-, source, s₁, s₂, s₃, load, mark, noted, opened⟩ := h
  have loading : Ensures False settings s (loadFile t name) _ := loadFile_ensures t name
  have opening : Ensures False settings { session := s₃.session, context := s₃.context }
    (openFile source.path source.text) _ := openFile_ensures _ _ _
  obtain ⟨found, hs₁⟩ := loading.of_ok load
  obtain ⟨-, -, last, rfl⟩ := opening.of_ok opened
  rw [markImported_eq] at mark
  obtain ⟨isNew, rfl⟩ := EStateM.Result.ok.inj mark
  obtain ⟨-, rfl⟩ := EStateM.Result.ok.inj noted
  refine ⟨s₁, source, last, hs₁ ▸ .load s name, rfl, isNew, ?_⟩
  rw [hs₁]
  exact fun files memory => key_mem_of_load found memory

theorem ready_of_enters (h : Enters settings t name s toks c) (hs : s.Ready unbounded (fuel + 1)) :
    c.Ready unbounded fuel := by
  obtain ⟨s₁, source, last, loaded, rfl, isNew, known⟩ := child_of_enters h
  exact ready_child (hs.steps (.single loaded)) known isNew t last

theorem openMain_ok (h : openMain path text settings (.unread library) = .ok toks s) :
    ∃ last, s = .start library path text last := by
  have opened : Ensures False settings (.unread library) (openMain path text)
      fun _ s' => ∃ last, s' = .start library path text last := by
    refine .markImported ((openFile_ensures _ _ _).mono fun _ s' h => ?_)
    obtain ⟨-, -, last, rfl⟩ := h
    exact ⟨last, rfl⟩
  exact opened.of_ok h

theorem openFile_lexed (h : openFile path text settings s = .ok toks c) : ∀ t ∈ toks, t.Lexed := by
  have opening : Ensures False settings s (openFile path text) _ := openFile_ensures _ _ _
  exact (opening.of_ok h).2.1

theorem lexed (h : Moment settings library path text fuel s toks) : ∀ t ∈ toks, t.Lexed := by
  induction h with
  | builtin _ _ enters | imported _ _ enters =>
    obtain ⟨-, source, _, _, _, -, -, -, opened⟩ := enters
    exact openFile_lexed opened
  | mainBehind opened | main opened => exact openFile_lexed opened
  | next _ _ ih => exact fun t ht => ih t (.tail _ ht)

theorem steps_of_asks (hs : s.Ready unbounded fuel) (lexed : t.Lexed)
    (asks : ∀ importer : Importer, token importer t settings s = importer arg name settings s₁) :
    State.Steps settings s s₁ := by
  have nothing : Imports unbounded settings fuel fun _ _ => pure () :=
    fun s _ _ _ _ => Ensures.pure (.refl s)
  exact (token_advances nothing hs lexed).of_ok (asks fun _ _ => pure ())

theorem ready (bounded : unbounded ∨ ∃ files, library = .memory files)
    (h : Moment settings library path text fuel s toks) : s.Ready unbounded fuel := by
  induction h with
  | builtin opened on enters =>
    obtain ⟨last, rfl⟩ := openMain_ok opened
    exact ready_of_enters enters (ready_start bounded path text last)
  | mainBehind opened on read =>
    obtain ⟨last, rfl⟩ := openMain_ok opened
    have start := ready_start bounded path text last
    exact start.steps ((importFile_imports _ _ start rfl _ _).of_ok read)
  | main opened off =>
    obtain ⟨last, rfl⟩ := openMain_ok opened
    exact ready_start bounded path text last
  | next h read ih =>
    exact ih.steps ((token_advances (importFile_imports _) ih (h.lexed _ (.head _))).of_ok read)
  | imported h asks enters ih =>
    exact ready_of_enters enters (ih.steps (steps_of_asks ih (h.lexed _ (.head _)) asks))

theorem steps_of_token (h : Moment settings library path text fuel s (t :: toks))
    (read : token (importFile fuel) t settings s = .ok () s') : State.Steps settings s s' := by
  have ready : s.Ready True fuel := h.ready (.inl trivial)
  exact (token_advances (importFile_imports _) ready (h.lexed _ (.head _))).of_ok read

theorem invariant {P : State → Prop} (start : ∀ last, P (.start library path text last))
    (steps : ∀ {s s'}, s.Nested → P s → State.Steps settings s s' → P s')
    (child : ∀ {s t source last}, P s → (s.context.markImported source.key).1 = true →
      P ((s.noted t source).child source last)) (h : Moment settings library path text fuel s toks) : P s := by
  have ready : ∀ {fuel s toks}, Moment settings library path text fuel s toks → s.Ready True fuel :=
    fun h => h.ready (.inl trivial)
  have entered : ∀ {t name s toks c}, Enters settings t name s toks c → s.Nested → P s → P c := by
    intro t name s toks c enters nested hs
    obtain ⟨s₁, source, last, loaded, rfl, isNew, -⟩ := child_of_enters enters
    exact child (steps nested hs (.single loaded)) isNew
  induction h with
  | builtin opened _ enters =>
    obtain ⟨last, rfl⟩ := openMain_ok opened
    exact entered enters (.start ..) (start last)
  | mainBehind opened _ read =>
    obtain ⟨last, rfl⟩ := openMain_ok opened
    have imports : Imports True settings _ _ := importFile_imports (library.bound + 1)
    have changes := (imports _ (ready_start (.inl trivial) path text last) rfl _ _).of_ok read
    exact steps (.start ..) (start last) changes
  | main opened =>
    obtain ⟨last, rfl⟩ := openMain_ok opened
    exact start last
  | next h read ih => exact steps (ready h).nested ih (h.steps_of_token read)
  | imported h asks enters ih =>
    have changes := steps_of_asks (ready h) (h.lexed _ (.head _)) asks
    exact entered enters ((ready h).nested.steps changes) (steps (ready h).nested ih changes)

theorem tokens_ok (h : Moment settings library path text fuel s (toks ++ rest))
    (read : tokens (importFile fuel) toks settings s = .ok () s') : Moment settings library path text fuel s' rest := by
  induction toks generalizing s with
  | nil =>
    obtain ⟨-, rfl⟩ := EStateM.Result.ok.inj read
    exact h
  | cons t toks ih =>
    rw [tokens, reading_bind] at read
    split at read
    · next hx => exact ih (.next h hx) read
    · cases read

theorem mainFile_ok (read : mainFile (library.bound + 1) path text settings (.unread library) = .ok () s) :
    Moment settings library path text (library.bound + 1) s [] := by
  rw [mainFile_eq] at read
  split at read
  · next toks s₀ opened =>
    split at read
    · next on =>
      split at read
      · next imported => exact tokens_ok (toks.append_nil.symm ▸ .mainBehind opened on imported) read
      · cases read
    · next off =>
      exact tokens_ok (toks.append_nil.symm ▸ .main opened (by simpa using off)) read
  · cases read

theorem balanced
    (h : Moment settings library path text fuel s toks) : s.Balanced := by
  have ready : s.Ready True fuel := h.ready (.inl trivial)
  exact ready.nested.balanced

end Moment

/-- Reading files in memory ends with a program or with a problem that can be reported, and so can all warnings.
At every moment of it, in the main file and in the imported ones, what is open fits to the open blocks. A
reading that comes to its end passed through all tokens of the main file, and nothing is open behind it. -/
theorem compile_safe (settings : Settings) (files : List (String × String)) (path text : String) :
    ((compile settings (.memory files) path text).stop = none ∨
      ∃ t p, (compile settings (.memory files) path text).stop = some (.problem t p) ∧ p.Reportable) ∧
    (∀ n ∈ (compile settings (.memory files) path text).session.notices, n.caution.Reportable) ∧
    (∀ fuel s toks, Moment settings (.memory files) path text fuel s toks → s.Balanced) ∧
    ∀ s, Parse.mainFile ((Library.memory files).bound + 1) path text settings
        { session := { library := .memory files }, context := .initial } = .ok () s →
      Moment settings (.memory files) path text ((Library.memory files).bound + 1) s [] ∧
      s.blocks = [] ∧ s.buffer = [] ∧ s.function = none ∧ s.record = none ∧ s.scope.depth = 0 ∧
      s.deferral.recording = none ∧ s.deferral.groups = [] := by
  have bounded : False ∨ ∃ files', Library.memory files = .memory files' := .inr ⟨files, rfl⟩
  have main : Parse.Ensures False settings _ _ _ := Parse.mainFile_ensures bounded path text
  refine ⟨?_, ?_, fun _ _ _ h => h.balanced, ?_⟩
  · unfold compile
    cases read : Parse.mainFile ((Library.memory files).bound + 1) path text settings (.unread (.memory files)) with
    | ok u s => exact .inl rfl
    | error e s =>
      refine .inr ?_
      rcases main.of_error read with reportable | ⟨free, -⟩
      · cases e with
        | problem t p => exact ⟨t, p, rfl, reportable⟩
        | fault f => exact reportable.elim
      · exact free.elim
  · have extended := main.notices
    unfold compile
    split at extended
    · next read =>
      rw [read]
      exact extended.reportable
    · next read =>
      rw [read]
      exact extended.reportable
  · intro s read
    obtain ⟨last, steps, blocks, buffer⟩ := main.of_ok read
    have nested := (State.Nested.start (.memory files) path text last).steps steps
    obtain ⟨outside, noRecord, depth, direct, groups⟩ := nested.of_blocks_nil blocks
    exact ⟨.mainFile_ok read, blocks, buffer, outside, noRecord, depth, direct, groups⟩

end Impulse
