import Impulse.Proofs.SinglePass

/-!
# Where errors are reported

An error that ends the reading of a file is reported at a token of that file, or in a file that it imports. There is
one exception: an element of a list in brackets is cut into tokens like a text of its own, and where that fails, the
place is counted from the beginning of the element.

A reading is compared with itself. Tokens correspond if they are equal and stand at a token of the file that is read,
or in a file that was opened later. So does then all that a state remembers of tokens, and every place where the reading
can stop.
-/

namespace Impulse

open List

/-- What the file with number `i` is cut into. -/
def SourceFile.cut (settings : Settings) (i : Nat) (source : SourceFile) : Tokens :=
  tokenize (settings.feature .comments) i source.text

def Token.StandsAt (toks : List Token) (t : Token) : Prop :=
  ∃ u ∈ toks, u.line = t.line ∧ u.column = t.column

/-- The token stands at one of the tokens of the file with number `i`, or in a file that was opened later. -/
def Token.StandsIn (i : Nat) (toks : List Token) (t : Token) : Prop :=
  t.file = i ∧ t.StandsAt toks ∨ i < t.file

/-- The same reading, where all tokens stand at tokens of the file with number `i`, or in files opened later. -/
def Comparison.ofFile (settings : Settings) (i : Nat) (source : SourceFile) : Comparison :=
  { ofLines settings with
    token := fun files t u => u = t ∧ i < files.length ∧ t.StandsIn i (source.cut settings i).tokens
    place := fun _ t u => u = t ∧ t.StandsIn i (source.cut settings i).tokens
    kind := fun same => congrArg _ same.1
    value := fun same => congrArg _ same.1
    file := fun same => congrArg _ same.1
    retag := fun kind value same =>
      ⟨congrArg (fun t : Token => { t with kind := kind, value := value }) same.1, same.2⟩
    grow := fun sub same => ⟨same.1, Nat.lt_of_lt_of_le same.2.1 sub.length_le, same.2.2⟩
    growPlace := fun _ same => same
    atToken := fun same => ⟨same.1, same.2.2⟩
    toShown := fun same => same.1
    opened := fun same hw => by
      have later := (Tokens.scan_file _ _ _ _).1 _ hw ▸ same.2.1
      refine ⟨rfl, ?_, .inr later⟩
      rw [length_append]
      exact Nat.lt_add_right _ same.2.1
    unopened := fun same failed => ⟨rfl, .inr ((Tokens.scan_file _ _ _ _).2 _ _ failed ▸ same.2.1)⟩ }

/-- Tokens of the file with number `i` are read: it was cut into tokens as a whole, and all that the state remembers of
tokens stands at them. -/
structure State.ReadsFile (settings : Settings) (i : Nat) (source : SourceFile) (s : State) : Prop where
  opened : s.session.files[i]? = some source
  whole : (source.cut settings i).failure = none
  alike : s.Alike (.ofFile settings i source) s.session.files s
  fits : settings.feature .strictTypes = true → ∀ a ∈ s.session.notices, a.caution.mismatch? = none

variable {settings : Settings} {library : Library} {path text : String} {i fuel : Nat} {s s' : State} {t w : Token}
  {toks : List Token} {p : Problem}

namespace State.ReadsFile

open Parse

theorem notices (h : s.ReadsFile settings i source) :
    Notices.Alike (.ofFile settings i source) s.session.files s.session.notices s.session.notices :=
  ⟨forall₂_same.mpr fun _ _ => ⟨rfl, rfl⟩, h.fits⟩

theorem token (h : s.ReadsFile settings i source) (ht : t ∈ (source.cut settings i).tokens) :
    (Comparison.ofFile settings i source).token s.session.files t t :=
  ⟨rfl, (List.getElem?_eq_some_iff.mp h.opened).1, .inl ⟨(Tokens.scan_file _ _ _ _).1 t ht, t, ht, rfl, rfl⟩⟩

theorem opened_of_prefix (h : s.ReadsFile settings i source)
    (sub : s.session.files <+: more) : more[i]? = some source := by
  obtain ⟨rest, rfl⟩ := sub
  rw [List.getElem?_append_left (List.getElem?_eq_some_iff.mp h.opened).1, h.opened]

theorem of_openFile {session : Session} {context : Context}
    (read : openFile path text settings { session := session, context := context } = .ok toks s)
    (fits : settings.feature .strictTypes = true → ∀ a ∈ session.notices, a.caution.mismatch? = none) :
    ∃ i source, s.ReadsFile settings i source ∧ toks = (source.cut settings i).tokens := by
  rw [openFile_eq] at read
  dsimp only at read
  cases whole : (tokenize (settings.feature .comments) session.files.length text).failure with
  | some p =>
    rw [whole] at read
    cases read
  | none =>
    rw [whole] at read
    obtain ⟨rfl, rfl⟩ := EStateM.Result.ok.inj read
    have last := tokenize_last whole
    have own := (Tokens.scan_file _ _ _ _).1 _ last
    refine ⟨session.files.length, ⟨path, text⟩, ⟨List.getElem?_concat_length, whole, ?_, fits⟩, rfl⟩
    exact {
      context := rfl, program := .nil, opened := rfl, sources := forall₂_same.mpr fun _ _ => rfl
      library := rfl, scope := rfl, file := rfl, last := ⟨rfl, .inl ⟨own, _, last, rfl, rfl⟩⟩
      buffer := .nil, blocks := .nil, afterBranch := rfl, function := rfl, record := .none
      deferral := ⟨.none, .nil⟩ }

theorem next (h : s.ReadsFile settings i source)
    (himporter : AgreedImporter (.ofFile settings i source) s.session.files importer importer)
    (ht : t ∈ (source.cut settings i).tokens) (read : Parse.token importer t settings s = .ok () s') :
    s'.ReadsFile settings i source := by
  obtain ⟨more, _, after, again, sub, -, alike, raised⟩ :=
    (token_agrees himporter (h.token ht)).of_ok h.alike h.notices read
  obtain ⟨-, rfl⟩ := EStateM.Result.ok.inj (again.symm.trans read)
  obtain rfl := alike.opened
  exact ⟨h.opened_of_prefix sub, h.whole, alike, raised.fits⟩

theorem of_enters (fits : settings.feature .strictTypes = true → ∀ a ∈ s.session.notices, a.caution.mismatch? = none)
    (enters : Parse.Enters settings t name s toks s') :
    ∃ i source, s'.ReadsFile settings i source ∧ toks = (source.cut settings i).tokens := by
  obtain ⟨-, source, s₁, s₂, s₃, load, mark, noted, opened⟩ := enters
  have loading : Ensures False settings s (loadFile t name) _ := loadFile_ensures t name
  obtain ⟨-, rfl⟩ := loading.of_ok load
  obtain ⟨-, rfl⟩ := EStateM.Result.ok.inj mark
  obtain ⟨-, rfl⟩ := EStateM.Result.ok.inj noted
  refine of_openFile opened ?_
  exact (emitted_session _ _).symm ▸ fits

end State.ReadsFile

namespace Parse

/-- What a file remembers of its own tokens, while others are imported. -/
def memory (s : State) : Token × List Token × List Block × Option Record :=
  (s.last, s.buffer, s.blocks, s.record)

theorem emit_memory (read : emit n settings s = .ok () s') : memory s' = memory s := by
  obtain ⟨-, rfl⟩ := EStateM.Result.ok.inj read
  show memory (s.emitted n) = _
  rw [State.emitted_eq]
  rfl

theorem readChild_memory {p : Program × Context} (read : readChild x settings s = .ok p s') :
    memory s' = memory s := by
  unfold readChild at read
  split at read
  · obtain ⟨-, rfl⟩ := EStateM.Result.ok.inj read
    rfl
  · cases read

theorem importFile_memory (read : importFile fuel t path settings s = .ok () s') : memory s' = memory s := by
  unfold importFile at read
  split at read
  · obtain ⟨isNew, s₁, mark, read⟩ := bind_ok read
    obtain ⟨-, rfl⟩ := EStateM.Result.ok.inj mark
    split at read
    · exact (emit_memory read).trans rfl
    · obtain ⟨-, rfl⟩ := EStateM.Result.ok.inj read
      rfl
  · obtain ⟨source, s₁, load, read⟩ := bind_ok read
    have loading : Ensures False settings s (loadFile t path) _ := loadFile_ensures t path
    obtain ⟨-, rfl⟩ := loading.of_ok load
    obtain ⟨isNew, s₂, mark, read⟩ := bind_ok read
    obtain ⟨-, rfl⟩ := EStateM.Result.ok.inj mark
    split at read
    · obtain ⟨_, s₃, noted, read⟩ := bind_ok read
      cases fuel with
      | zero => cases read
      | succ n =>
        obtain ⟨p, s₄, child, read⟩ := bind_ok read
        have absorbing : Ensures False settings s₄ (absorb t p.1 p.2) fun _ s' => memory s' = memory s₄ :=
          .absorb fun _ _ => rfl
        rw [absorbing.of_ok read, readChild_memory child, emit_memory noted]
        rfl
    · obtain ⟨-, rfl⟩ := EStateM.Result.ok.inj read
      rfl

end Parse

theorem State.ReadsFile.behind (h : s.ReadsFile settings i source)
    (read : Parse.importFile fuel t name settings s = .ok () s') : s'.ReadsFile settings i source := by
  have start : s.Alike (.ofLines settings) s.session.files s :=
    { h.alike with
      last := trivial
      buffer := forall₂_same.mpr fun _ _ => rfl
      blocks := forall₂_same.mpr fun _ _ => ⟨rfl, rfl, rfl, rfl⟩
      record := optionRel_imp h.alike.record fun _ _ same => same.imp fun _ _ => And.left }
  obtain ⟨more, _, after, again, sub, -, alike, raised⟩ :=
    (Parse.importFile_agrees (K := .ofLines settings) fuel _ (prefix_refl _) rfl name).of_ok start
      ⟨forall₂_same.mpr fun _ _ => ⟨rfl, rfl⟩, h.fits⟩ read
  obtain ⟨-, rfl⟩ := EStateM.Result.ok.inj (again.symm.trans read)
  obtain rfl := alike.opened
  have shown : after.Shown (.ofFile settings i source) after.session.files after :=
    ⟨rfl, alike.program, rfl, alike.sources, rfl⟩
  -- The tokens of the file itself are those of the state before.
  have kept := h.alike.withSession sub shown
  have memory := Parse.importFile_memory read
  simp only [Parse.memory, Prod.mk.injEq] at memory
  obtain ⟨last, buffer, blocks, record⟩ := memory
  refine ⟨h.opened_of_prefix sub, h.whole, ?_, raised.fits⟩
  exact { shown with
    scope := rfl, file := rfl, last := last ▸ kept.last, buffer := buffer ▸ kept.buffer
    blocks := blocks ▸ kept.blocks, afterBranch := rfl, function := rfl, record := record ▸ kept.record
    deferral := alike.deferral }

open Parse in
theorem Moment.readsFile (h : Moment settings library path text fuel s toks) :
    ∃ i source, s.ReadsFile settings i source ∧ toks <:+ (source.cut settings i).tokens := by
  have main {toks : List Token} {s : State} (opened : openMain path text settings (.unread library) = .ok toks s) :
      ∃ i source, s.ReadsFile settings i source ∧ toks = (source.cut settings i).tokens := by
    obtain ⟨_, s₁, mark, opened⟩ := bind_ok opened
    obtain ⟨-, rfl⟩ := EStateM.Result.ok.inj mark
    exact State.ReadsFile.of_openFile opened fun _ => forall_mem_nil _
  induction h with
  | builtin opened _ enters =>
    obtain ⟨i, source, reads, rfl⟩ := main opened
    obtain ⟨j, source', reads', rfl⟩ := State.ReadsFile.of_enters reads.fits enters
    exact ⟨j, source', reads', suffix_refl _⟩
  | mainBehind opened _ read =>
    obtain ⟨i, source, reads, rfl⟩ := main opened
    exact ⟨i, source, reads.behind read, suffix_refl _⟩
  | main opened =>
    obtain ⟨i, source, reads, rfl⟩ := main opened
    exact ⟨i, source, reads, suffix_refl _⟩
  | next _ read ih =>
    obtain ⟨i, source, reads, left⟩ := ih
    refine ⟨i, source, reads.next (importFile_agrees _ _) (left.subset (.head _)) read, ?_⟩
    exact (suffix_cons _ _).trans left
  | imported _ asks enters ih =>
    obtain ⟨i, source, reads, left⟩ := ih
    -- An importer that does nothing shows the state in which the import is asked for.
    have idle (files : List SourceFile) :
        AgreedImporter (.ofFile settings i source) files (fun _ _ => pure ()) fun _ _ => pure () :=
      fun _ _ _ => .pure trivial
    have before := reads.next (idle _) (left.subset (.head _)) (asks fun _ _ => pure ())
    obtain ⟨j, source', reads', rfl⟩ := State.ReadsFile.of_enters before.fits enters
    exact ⟨j, source', reads', suffix_refl _⟩

theorem Report.fileName_of_getElem? (found : files[i]? = some source) :
    fileName files i = source.name := by
  unfold fileName file?
  rw [if_neg (by omega), Int.toNat_natCast, found]
  rfl

/-- The error tells that an element of a list in brackets cannot be cut into tokens. The list stands at one of the
tokens, and the place of the error is counted from the beginning of the element. -/
def Problem.InElement (settings : Settings) (i : Nat) (toks : List Token) (w : Token) (p : Problem) : Prop :=
  ∃ group piece e, Token.StandsAt toks group ∧ piece ∈ Infer.elementTexts (Text.trim group.value) ∧
    p = .lexical e ∧ (tokenize (settings.feature .comments) i piece).failure = some (w, e)

/-- The report names the file, and one of the tokens stands at its place. -/
def Diagnostic.PointsInto (source : SourceFile) (toks : List Token) (d : Diagnostic) : Prop :=
  d.file = source.name ∧ ∃ u ∈ toks, (u.line : Int) = d.line ∧ (u.column : Int) = d.column

/-- An error that ends the reading of a file is reported in a file that was opened later, or by the name of the file at
one of its tokens; but errors in the elements of lists are reported at places that are counted from the beginning of the
element. -/
theorem Moment.error_place (h : Moment settings library path text fuel s (t :: toks))
    (stopped : Parse.token (Parse.importFile fuel) t settings s = .error (.problem w p) s') :
    ∃ i source, s.session.files[i]? = some source ∧ (source.cut settings i).failure = none ∧
      (t :: toks) <:+ (source.cut settings i).tokens ∧ (i < w.file ∨
        (Report.diagnostic s'.session.files w.span p.message).PointsInto source (source.cut settings i).tokens ∨
        (Report.diagnostic s'.session.files w.span p.message).file = source.name ∧
          p.InElement settings i (source.cut settings i).tokens w) := by
  obtain ⟨i, source, reads, left⟩ := h.readsFile
  refine ⟨i, source, reads.opened, reads.whole, left, ?_⟩
  have met := (Parse.token_agrees (Parse.importFile_agrees fuel _) (reads.token (left.subset (.head _))) _ _
    reads.alike).2 reads.notices
  change Parse.Meets _ _ _ (Parse.token _ t settings s) (Parse.token _ t settings s) at met
  rw [stopped] at met
  cases met with
  | early mixed =>
    have strict : settings.feature .strictTypes = true := mixed.1
    have lax : settings.feature .strictTypes = false := mixed.2
    rw [strict] at lax
    cases lax
  | stop sub stop shown _ =>
    obtain rfl := shown.opened
    have named (own : w.file = i) : (Report.diagnostic s'.session.files w.span p.message).file = source.name :=
      Report.fileName_of_getElem? (own ▸ reads.opened_of_prefix sub)
    cases stop with
    | problem place =>
      obtain ⟨own, u, hu, line, column⟩ | later := place.2
      · exact .inr (.inl ⟨named own, u, hu, congrArg _ line, congrArg _ column⟩)
      · exact .inl later
    | @piece group _ _ piece e token part failed =>
      have sameFile : w.file = group.file := (Tokens.scan_file _ _ _ _).2 _ _ failed
      obtain ⟨own, stands⟩ | later := token.2.2
      · exact .inr (.inr ⟨named (sameFile.trans own), group, piece, e, stands, part, rfl, own ▸ failed⟩)
      · exact .inl (sameFile ▸ later)

theorem Moment.of_tokens_error (h : Moment settings library path text fuel s toks)
    (stopped : Parse.tokens (Parse.importFile fuel) toks settings s = .error e s') :
    ∃ fuel s t toks s', Moment settings library path text fuel s (t :: toks) ∧
      Parse.token (Parse.importFile fuel) t settings s = .error e s' := by
  induction toks generalizing s with
  | nil => cases stopped
  | cons t toks ih =>
    rw [Parse.tokens, reading_bind] at stopped
    split at stopped
    · next read => exact ih (.next h read) stopped
    · next read =>
      cases stopped
      exact ⟨fuel, s, t, toks, s', h, read⟩

theorem Moment.of_stop (off : settings.feature .builtin = false)
    (whole : (tokenize (settings.feature .comments) 0 text).failure = none)
    (stopped : (compile settings library path text).stop = some e) :
    ∃ fuel s t toks s', Moment settings library path text fuel s (t :: toks) ∧
      Parse.token (Parse.importFile fuel) t settings s = .error e s' := by
  unfold compile at stopped
  rw [Parse.mainFile_eq] at stopped
  simp only [off, Bool.false_eq_true, if_false] at stopped
  split at stopped
  · cases stopped
  · next read =>
    cases stopped
    split at read
    · next opened => exact of_tokens_error (.main opened off) read
    · next failed =>
      change Parse.openFile path text settings { session := { library := library }, context := _ } = _ at failed
      rw [Parse.openFile_eq] at failed
      dsimp only [length_nil] at failed
      rw [whole] at failed
      cases failed

/-- A list in brackets with an element that is no expression, behind a blank. -/
def brokenElement : String :=
  " x: int = [1, #];"

theorem Moment.error_place_brokenElement :
    ∃ fuel s t toks w p s', Moment Settings.plain (.memory []) "main.imp" brokenElement fuel s (t :: toks) ∧
      Parse.token (Parse.importFile fuel) t Settings.plain s = .error (.problem w p) s' ∧
      ∃ (i : Nat) (source : SourceFile), i < w.file ∨
        (Report.diagnostic s'.session.files w.span p.message).PointsInto source (source.cut Settings.plain i).tokens ∨
        (Report.diagnostic s'.session.files w.span p.message).file = source.name ∧
          p.InElement Settings.plain i (source.cut Settings.plain i).tokens w := by
  have whole : (tokenize true 0 brokenElement).failure.isNone = true := by decide +kernel
  have run : (compile Settings.plain (.memory []) "main.imp" brokenElement).diagnostic?.isSome = true := by
    decide +kernel
  unfold Compilation.diagnostic? at run
  split at run
  · next w p stop =>
    obtain ⟨fuel, s, t, toks, s', moment, stopped⟩ := of_stop rfl (Option.isNone_iff_eq_none.mp whole) stop
    obtain ⟨i, source, -, -, -, place⟩ := error_place moment stopped
    exact ⟨fuel, s, t, toks, w, p, s', moment, stopped, i, source, place⟩
  · cases run

/-- The error is reported at the first character of the file, where no token stands. -/
theorem compile_brokenElement :
    (tokenize true 0 brokenElement).failure = none ∧
    ∃ d, (compile Settings.plain (.memory []) "main.imp" brokenElement).diagnostic? = some d ∧
      ¬d.PointsInto ⟨"main.imp", brokenElement⟩ (tokenize true 0 brokenElement).tokens := by
  have run : ((tokenize true 0 brokenElement).failure.isNone &&
      (compile Settings.plain (.memory []) "main.imp" brokenElement).diagnostic?.any fun d =>
        (tokenize true 0 brokenElement).tokens.all fun u =>
          !((u.line : Int) == d.line && (u.column : Int) == d.column)) = true := by decide +kernel
  simp only [Bool.and_eq_true, Option.isNone_iff_eq_none, Option.any_eq_true, all_eq_true, Bool.not_eq_true',
    Bool.and_eq_false_iff, beq_eq_false_iff_ne] at run
  obtain ⟨whole, d, given, apart⟩ := run
  refine ⟨whole, d, given, fun ⟨_, u, hu, line, column⟩ => ?_⟩
  exact (apart u hu).elim (fun other => other line) fun other => other column

end Impulse
