import Impulse.Proofs.AgreedPrograms

/-!
# What switches change

A text is compiled twice, with settings that differ in a switch. Whether types are strict decides what is done about
types that do not fit, and nothing else: a strict compilation stops at the first of them, and up to there both are the
same. Whether a warning is on decides whether it is printed, and nothing else.
-/

namespace Impulse

variable {σ τ : Settings} (settings : Settings)

/-- The settings `σ` are at least as strict as `τ`, and agree in all else that is read while a program is compiled. -/
structure Settings.AsStrict (σ τ : Settings) : Prop where
  feature {f : Feature} : f ≠ .strictTypes → τ.feature f = σ.feature f
  wordSize : τ.wordSize = σ.wordSize
  stricter : τ.feature .strictTypes = true → σ.feature .strictTypes = true

/-- Both readings are given the same text, so tokens correspond to themselves. They belong to files that were opened. -/
def Comparison.ofSettings (h : σ.AsStrict τ) : Comparison where
  first := σ
  second := τ
  source file file' := file' = file
  token files t u := u = t ∧ t.file < files.length
  place _ t u := u = t
  shown files t u := u = t ∧ t.file < files.length
  feature := h.feature
  wordSize := h.wordSize
  stricter := h.stricter
  sourceSame _ := rfl
  sourceName same := congrArg _ same
  kind same := congrArg _ same.1
  value same := congrArg _ same.1
  file same := congrArg _ same.1
  retag kind value same := ⟨congrArg (fun t : Token => { t with kind := kind, value := value }) same.1, same.2⟩
  grow sub same := ⟨same.1, Nat.lt_of_lt_of_le same.2 sub.length_le⟩
  growPlace _ same := same
  growShown sub same := ⟨same.1, Nat.lt_of_lt_of_le same.2 sub.length_le⟩
  atToken same := same.1
  toShown same := same
  opened {files path text t u w} _ hw := by
    refine ⟨rfl, ?_⟩
    rw [(Tokens.scan_file _ _ _ _).1 w hw, List.length_append]
    exact Nat.lt_succ_self _
  unopened _ _ := rfl

theorem State.Shown.eq {s s' : State}
    (shown : s.Shown (.ofSettings h) files s')
    (notices : Notices.Alike (.ofSettings h) files s.session.notices s'.session.notices) :
    s'.program = s.program ∧ s'.context = s.context ∧ s'.session = s.session := by
  have program : s'.program = s.program := shown.program_eq fun _ _ => And.left
  have opened : s'.session.files = s.session.files := by
    rw [shown.opened]
    exact List.forall₂_eq_eq_eq ▸ shown.sources.flip
  have raised : s'.session.notices = s.session.notices := notices.eq fun _ _ => And.left
  refine ⟨program, shown.context, ?_⟩
  have library := shown.library
  generalize s.session = session at opened raised library ⊢
  generalize s'.session = session' at opened raised library ⊢
  cases session
  cases session'
  simp_all only

/-- The compilation `c` stopped at types that do not fit, and `d` raised a notice there and went on. -/
structure Compilation.StopsIn (c d : Compilation) (t : Token) (m : Mismatch) : Prop where
  stop : c.stop = some (.problem t (.mismatch m))
  fits : ∀ a ∈ c.session.notices, a.caution.mismatch? = none
  raised : c.session.notices ++ [⟨t, .mismatch m⟩] <+: d.session.notices
  inside : t.file < c.session.files.length
  names : c.session.files.map (·.name) <+: d.session.files.map (·.name)

/-- What a compilation gives, from the end of the reading of its main file. -/
def Compilation.ofResult : EStateM.Result Stop State Unit → Compilation
  | .ok _ s => ⟨none, s.program, s.context, s.session⟩
  | .error e s => ⟨some e, s.program, s.context, s.session⟩

theorem compile_eq (library : Library) (path text : String) :
    compile settings library path text = .ofResult (Parse.mainFile (library.bound + 1) path text settings (.unread library)) :=
  rfl

/-- Two compilations of a text are equal, or the stricter one stops in the other one. -/
theorem compile_cases (h : σ.AsStrict τ) (library : Library) (path text : String) :
    (compile τ library path text = compile σ library path text ∧ (σ.feature .strictTypes = true →
        ∀ a ∈ (compile σ library path text).session.notices, a.caution.mismatch? = none)) ∨
    (σ.feature .strictTypes = true ∧ τ.feature .strictTypes = false ∧
      ∃ t m, (compile σ library path text).StopsIn (compile τ library path text) t m) := by
  have opened : ∀ t ∈ (tokenize (σ.feature .comments) 0 text).tokens, t = t ∧ t.file < [SourceFile.mk path text].length :=
    fun t ht => ⟨rfl, (Tokens.scan_file _ _ _ _).1 t ht ▸ Nat.zero_lt_one⟩
  have met := (Parse.mainFile_agrees (K := .ofSettings h) (library.bound + 1) opened (fun _ _ _ => rfl)
    ⟨rfl, Nat.zero_lt_one⟩ _ _ (.initial _ library rfl)).2 ⟨.nil, fun _ => List.forall_mem_nil _⟩
  rw [compile_eq, compile_eq]
  change Parse.Meets _ _ _ (Parse.mainFile _ _ _ σ _) (Parse.mainFile _ _ _ τ _) at met
  generalize Parse.mainFile _ _ _ σ _ = p at met ⊢
  generalize Parse.mainFile _ _ _ τ _ = q at met ⊢
  cases met with
  | ok _ _ states notices =>
    obtain ⟨program, context, session⟩ := states.toShown.eq notices
    refine .inl ⟨?_, notices.fits⟩
    simp only [Compilation.ofResult, program, context, session]
  | stop _ stop shown notices =>
    obtain ⟨program, context, session⟩ := shown.eq notices
    refine .inl ⟨?_, notices.fits⟩
    cases stop with
    | @problem t u place p =>
      obtain rfl : u = t := place
      simp only [Compilation.ofResult, program, context, session]
    | piece | fault f => simp only [Compilation.ofResult, program, context, session]
  | @early t u m s ms r mixed token notices raised names =>
    -- Whatever the other reading does from here on, it takes back neither the notice nor a file.
    obtain ⟨rfl, inside⟩ : u = t ∧ t.file < s.session.files.length := token
    obtain rfl : ms = s.session.notices := notices.eq fun _ _ => And.left
    refine .inr ⟨mixed.1, mixed.2, u, m, rfl, notices.fits mixed.1, ?_, inside, ?_⟩
    · cases q <;> exact raised
    · cases q <;> exact names

/-- The first types that did not fit, and did not stop the compilation. -/
def Compilation.firstMismatch? (c : Compilation) : Option Notice :=
  c.session.notices.find? (·.caution.mismatch?.isSome)

theorem Report.fileName_eq (names : files.map (·.name) <+: more.map (·.name))
    {i : Nat} (inside : i < files.length) : fileName more i = fileName files i := by
  obtain ⟨rest, grown⟩ := names
  have found : (more.map (·.name))[i]? = (files.map (·.name))[i]? := by
    rw [← grown, List.getElem?_append_left]
    rwa [List.length_map]
  rw [List.getElem?_map, List.getElem?_map] at found
  have nonneg : ¬(i : Int) < 0 := by omega
  unfold fileName file?
  rw [if_neg nonneg, if_neg nonneg, Int.toNat_natCast, found]

namespace Compilation.StopsIn

variable {c d : Compilation}

theorem firstMismatch?_eq (h : c.StopsIn d t m) : d.firstMismatch? = some ⟨t, .mismatch m⟩ := by
  obtain ⟨rest, notices⟩ := h.raised
  unfold firstMismatch?
  rw [← notices, List.append_assoc, List.find?_append, List.find?_eq_none.mpr, Option.none_or]
  · rfl
  · intro a ha
    rw [h.fits a ha]
    exact Bool.false_ne_true

theorem diagnostic?_eq (h : c.StopsIn d t m) :
    c.diagnostic? = some (Report.diagnostic d.session.files t.span (Caution.mismatch m).message) := by
  have name : Report.fileName d.session.files t.file = Report.fileName c.session.files t.file :=
    Report.fileName_eq h.names h.inside
  unfold diagnostic? Report.diagnostic
  rw [h.stop]
  show some (Diagnostic.mk (Report.fileName c.session.files t.file) _ _ _) = _
  rw [← name]
  rfl

end Compilation.StopsIn

theorem Settings.asStrict_setFeature :
    (settings.setFeature .strictTypes true).AsStrict (settings.setFeature .strictTypes false) where
  feature other := by
    show (if _ then _ else _) = if _ then _ else _
    rw [if_neg other, if_neg other]
  wordSize := rfl
  stricter _ := rfl

/-- Strict types turn the first types that do not fit into an error, and change nothing else. -/
theorem compile_strictTypes (settings : Settings) (library : Library) (path text : String) :
    let strictly := settings.setFeature .strictTypes true
    let laxly := settings.setFeature .strictTypes false
    let strict := compile strictly library path text
    let lax := compile laxly library path text
    (strict.stop = none → lax.stop = none ∧ lax.program = strict.program ∧ lax.context = strict.context ∧
      lax.output laxly = strict.output strictly) ∧
    (∀ n, lax.firstMismatch? = some n →
      strict.diagnostic? = some (Report.diagnostic lax.session.files n.token.span n.caution.message)) ∧
    (lax.firstMismatch? = none → lax = strict ∧ lax.output laxly = strict.output strictly) := by
  intro strictly laxly strict lax
  obtain ⟨same, fits⟩ | ⟨-, -, t, m, stops⟩ := compile_cases settings.asStrict_setFeature library path text
  · replace same : lax = strict := same
    have output : lax.output laxly = strict.output strictly := by
      rw [same]
      rfl
    refine ⟨fun accepted => ?_, fun n first => ?_, fun _ => ⟨same, output⟩⟩
    · rw [same] at output ⊢
      exact ⟨accepted, rfl, rfl, output⟩
    · rw [same] at first
      have none := fits rfl n (List.mem_of_find?_eq_some first)
      have some := List.find?_some first
      rw [none] at some
      cases some
  · replace stops : strict.StopsIn lax t m := stops
    refine ⟨fun accepted => ?_, fun n first => ?_, fun none => ?_⟩
    · rw [stops.stop] at accepted
      cases accepted
    · rw [stops.firstMismatch?_eq] at first
      cases first
      exact stops.diagnostic?_eq
    · rw [stops.firstMismatch?_eq] at none
      cases none

/-- Two values that do not fit, the first of them in an imported file. -/
def unfitting : String :=
  "@import \"lib.imp\"; y: int = \"b\"; f :: () \x7b z: int = 1; \x7d"

theorem compile_strictTypes_unfitting :
    let library := Library.memory [("lib.imp", "x: int = \"a\";")]
    let strict := compile (Settings.plain.setFeature .strictTypes true) library "main.imp" unfitting
    let lax := compile (Settings.plain.setFeature .strictTypes false) library "main.imp" unfitting
    lax.stop = none ∧ lax.session.notices.length = 2 ∧ ∃ n, lax.firstMismatch? = some n ∧
      strict.diagnostic? = some (Report.diagnostic lax.session.files n.token.span n.caution.message) := by
  intro library strict lax
  have run : (lax.stop.isNone && lax.session.notices.length == 2 && lax.firstMismatch?.isSome) = true := by
    decide +kernel
  simp only [Bool.and_eq_true, Option.isNone_iff_eq_none, beq_iff_eq, Option.isSome_iff_exists] at run
  obtain ⟨⟨accepted, two⟩, n, first⟩ := run
  exact ⟨accepted, two, n, first, (compile_strictTypes Settings.plain library "main.imp" unfitting).2.1 n first⟩

def Notice.report (color : Bool) (files : List SourceFile) (n : Notice) : String :=
  Report.placeText files n.token.span ++ Report.paint color "33" "warning:" ++ " " ++ n.caution.message
    ++ " [-W" ++ n.caution.warning.name ++ "]\n" ++ Report.excerpt color files n.token.span

def Compilation.errorReport (color : Bool) (c : Compilation) : String :=
  match c.stop with
  | some (.problem t p) => Report.error color c.session.files t.span p.message
  | _ => ""

theorem Compilation.warnings_eq (c : Compilation) (settings : Settings) :
    c.warnings settings = String.join ((c.session.notices.filter fun n => settings.warning n.caution.warning).map
      (Notice.report settings.color c.session.files)) := by
  unfold warnings
  generalize c.session.notices = notices
  induction notices with
  | nil => rfl
  | cons n notices ih =>
    rw [List.map_cons, String.join_cons, ih, List.filter_cons, Report.warning]
    split
    · rw [List.map_cons, String.join_cons]
      rfl
    · exact String.empty_append

/-- Switches of warnings decide which of the notices are printed, and change nothing else. -/
theorem compile_warningSwitches (settings : Settings) (library : Library) (path text : String) :
    ∃ c : Compilation, ∀ switches : Warning → Bool,
      compile { settings with warning := switches } library path text = c ∧
      c.output { settings with warning := switches } =
        String.join ((c.session.notices.filter fun n => switches n.caution.warning).map
          (Notice.report settings.color c.session.files)) ++ c.errorReport settings.color := by
  refine ⟨compile settings library path text, fun switches => ⟨?_, ?_⟩⟩
  · have agree : settings.AsStrict { settings with warning := switches } := ⟨fun _ => rfl, rfl, id⟩
    obtain ⟨same, -⟩ | ⟨strict, lax, -⟩ := compile_cases agree library path text
    · exact same
    · rw [strict] at lax
      cases lax
  · unfold Compilation.output
    rw [Compilation.warnings_eq]
    rfl

end Impulse
