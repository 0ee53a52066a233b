import Impulse.Proofs.AgreedPrograms
import Impulse.Proofs.Definitions
import Impulse.Proofs.LineEnds

/-!
# Programs are read in one pass

A text that is accepted keeps its meaning when more lines follow it, if the longer text is accepted too. Its tokens
are read as before, so the reading of the longer text passes through the state in which the shorter one ended. What
follows adds entries to the program and to the tables, and marks files. It replaces nothing but the field variables of
a global variable, by constants of a new enum that is called like the variable.
-/

namespace Impulse

open List

namespace Table

variable {t u : Table α}

/-- The entries of `t` stay where they are in `u`, except that some are replaced by entries of the same name. -/
def Begins (replaced : Entry α → Prop) (t u : Table α) : Prop :=
  ∀ (i : Nat) (e : Entry α), t.entries[i]? = some e →
    ∃ e', u.entries[i]? = some e' ∧ (e' = e ∨ e'.name = e.name ∧ replaced e')

namespace Begins

theorem refl (t : Table α) : t.Begins replaced t :=
  fun _ e he => ⟨e, he, .inl rfl⟩

theorem mono (h : t.Begins replaced u) (weaker : ∀ e, replaced e → others e) :
    t.Begins others u := by
  intro i e he
  obtain ⟨e', he', same⟩ := h i e he
  exact ⟨e', he', same.imp_right (And.imp_right (weaker e'))⟩

theorem extend (h : t.Begins replaced u) (behind : u.entries <+: w.entries) : t.Begins replaced w := by
  intro i e he
  obtain ⟨e', he', same⟩ := h i e he
  obtain ⟨inside, rfl⟩ := List.getElem?_eq_some_iff.mp he'
  exact ⟨_, prefix_iff_getElem?.mp behind i inside, same⟩

theorem add (h : t.Begins replaced u)
    (may : name ∉ t.names ∨ replaced ⟨name, item, origin⟩) : t.Begins replaced (u.add name item origin) := by
  unfold Table.add
  split
  · intro i e he
    obtain ⟨e', he', same⟩ := h i e he
    rw [List.getElem?_map, he']
    refine ⟨_, rfl, ?_⟩
    have known : e'.name = e.name := same.elim (congrArg Entry.name) And.left
    dsimp only
    split
    · next named =>
      have named : e.name = name := known ▸ beq_iff_eq.mp named
      refine .inr ⟨named.symm, may.resolve_left fun fresh => fresh ?_⟩
      exact named ▸ mem_map_of_mem (mem_of_getElem? he)
    · exact same
  · exact h.extend (prefix_append _ _)

theorem addAll (h : t.Begins replaced u) {xs : List α} (key : α → String)
    (may : ∀ x ∈ xs, key x ∉ t.names ∨ replaced ⟨key x, x, origin⟩) :
    t.Begins replaced (xs.foldl (fun t x => t.add (key x) x origin) u) := by
  induction xs generalizing u with
  | nil => exact h
  | cons x xs ih => exact ih (h.add (may x (.head _))) fun y hy => may y (.tail _ hy)

end Begins

theorem prefix_of_begins (h : t.Begins (fun _ => False) u) : t.entries <+: u.entries := by
  rw [prefix_iff_getElem?]
  intro i inside
  obtain ⟨e', he', same⟩ := h i _ (List.getElem?_eq_getElem inside)
  rw [he', same.resolve_right And.right]

theorem prefix_add (h : t.entries <+: u.entries) (fresh : name ∉ t.names) (item : α) (origin : String) :
    t.entries <+: (u.add name item origin).entries :=
  prefix_of_begins (((Begins.refl t).extend h).add (.inl fresh))

end Table

namespace Context

variable {c c₁ : Context}

/-- A constant of an enum that `c₁` knows and `c` does not, as it is entered among the global variables. -/
def NewConstant (c c₁ : Context) (e : Table.Entry Variable) : Prop :=
  ∃ d ∈ c₁.enums.entries, d.name ∉ c.enums.names ∧
    ∃ x ∈ Parse.enumConstants ⟨d.name, default, d.item.fields⟩, e = ⟨x.name, x, d.origin⟩

/-- What `c` knows stays in `c₁`: functions, structs, enums and marked files come first, and so do global variables,
except that constants of new enums can replace some of them. -/
structure Begins (c c₁ : Context) : Prop where
  functions : c.functions.entries <+: c₁.functions.entries
  structs : c.structs.entries <+: c₁.structs.entries
  enums : c.enums.entries <+: c₁.enums.entries
  globals : c.globals.Begins (c.NewConstant c₁) c₁.globals
  imported : c.imported <+: c₁.imported

namespace Begins

theorem refl (c : Context) : c.Begins c where
  functions := prefix_refl _
  structs := prefix_refl _
  enums := prefix_refl _
  globals := .refl _
  imported := prefix_refl _

theorem not_defines (h : c.Begins c₁) (free : ¬c₁.Defines name) : ¬c.Defines name := by
  rintro ⟨r, kind, mem⟩
  refine free ⟨r, kind, ?_⟩
  cases r with
  | functions => exact (h.functions.map _).subset mem
  | structs => exact (h.structs.map _).subset mem
  | enums => exact (h.enums.map _).subset mem
  | globals => exact absurd rfl kind

theorem not_global (h : c.Begins c₁) (free : name ∉ c₁.globals.names) : name ∉ c.globals.names := by
  intro mem
  obtain ⟨e, he, rfl⟩ := mem_map.mp mem
  obtain ⟨i, hi⟩ := mem_iff_getElem?.mp he
  obtain ⟨e', he', same⟩ := h.globals i e hi
  have known : e'.name = e.name := same.elim (congrArg Table.Entry.name) And.left
  exact free (known ▸ mem_map_of_mem (mem_of_getElem? he'))

theorem newConstant (more : c₁.enums.entries <+: c₂.enums.entries)
    (h : c.NewConstant c₁ e) : c.NewConstant c₂ e := by
  obtain ⟨d, hd, rest⟩ := h
  exact ⟨d, more.subset hd, rest⟩

theorem markImported (h : c.Begins c₁) (key : UInt64) : c.Begins (c₁.markImported key).2 := by
  rw [markImported_imported]
  refine { h with imported := h.imported.trans ?_ }
  dsimp only
  split
  · exact prefix_refl _
  · exact prefix_append _ _

theorem addGlobal (h : c.Begins c₁) (rooted : c₁.Rooted) {x : Variable} (plain : PlainName x.name)
    (undefined : c₁.definedIn? x.name = none) (fresh : c₁.globals.get? x.name = none) (file : String) :
    c.Begins { c₁ with globals := (c₁.introduced x).foldl (fun t y => t.add y.name y file) c₁.globals } := by
  have unknown : x.name ∉ c₁.names .globals := fun known => (Table.mem_names_iff_get? _ _).mp known fresh
  have free : ¬c₁.Defines x.name := definedIn?_eq_none.mp undefined
  refine { h with globals := h.globals.addAll (fun y : Variable => y.name) fun y hy => .inl (h.not_global ?_) }
  have brought : y ∈ (Declaration.mk c₁ x).introduced := hy
  rcases Declaration.name_of_mem_introduced brought with same | into
  · rw [same]
    exact unknown
  · -- A field variable that is known belongs to a variable or to an enum of the same name.
    intro known
    rcases rooted.global_of_path plain into known with global | enum
    · exact unknown global
    · exact free ⟨.enums, by decide, enum⟩

theorem addStruct (h : c.Begins c₁) (fresh : name ∉ c.structs.names) (d : StructDef) (file : String) :
    c.Begins { c₁ with structs := c₁.structs.add name d file } :=
  { h with structs := Table.prefix_add h.structs fresh d file }

theorem registered (h : c.Begins c₁) (undefined : c₁.definedIn? sig.name = none)
    (method : sig.method ≠ "" → sig.method ∉ c.structs.names) (file : String) : c.Begins (c₁.registered sig file) := by
  have fresh : sig.name ∉ c.functions.names := fun mem =>
    h.not_defines (definedIn?_eq_none.mp undefined) ⟨.functions, by decide, mem⟩
  have added : c.Begins { c₁ with functions := c₁.functions.add sig.name sig file } :=
    { h with functions := Table.prefix_add h.functions fresh sig file }
  unfold Context.registered
  dsimp only
  split
  · exact added
  · next noted => exact added.addStruct (method noted) _ _

theorem addEnum (h : c.Begins c₁) {d : EnumDraft} (free : ¬c₁.Defines d.name) (file : String) :
    c.Begins { c₁ with
      enums := c₁.enums.add d.name { name := d.name, fields := d.fields } file
      globals := (Parse.enumConstants d).foldl (fun t x => t.add x.name x file) c₁.globals } := by
  have fresh : d.name ∉ c.enums.names := fun mem => h.not_defines free ⟨.enums, by decide, mem⟩
  have unknown : c₁.enums.find? d.name = none :=
    Table.not_mem_names.mp fun mem => free ⟨.enums, by decide, mem⟩
  have behind : (c₁.enums.add d.name { name := d.name, fields := d.fields } file).entries
      = c₁.enums.entries ++ [⟨d.name, { name := d.name, fields := d.fields }, file⟩] := by
    rw [Table.add, if_neg (by simp [Table.has_eq_isSome, unknown])]
  have more : c₁.enums.entries <+: _ := behind ▸ prefix_append _ _
  refine { h with enums := h.enums.trans more, globals := ?_ }
  refine (h.globals.mono fun e => newConstant more).addAll (fun x : Variable => x.name) fun x hx => .inr ?_
  refine ⟨⟨d.name, { name := d.name, fields := d.fields }, file⟩, ?_, fresh, x, hx, rfl⟩
  rw [behind]
  exact mem_append_right _ (mem_singleton_self _)

theorem absorb (h : c.Begins c₁) (taken : c₁.absorb child = (merged, none)) :
    c.Begins merged := by
  have behind : ∀ {α : Type} {t other merged : Table α}, t.absorb other = (merged, none) →
      t.entries <+: merged.entries := by
    intro α t other merged taken
    have first := t.entries_prefix_absorbEntries other.entries
    rwa [show t.absorbEntries other.entries = (merged, none) from taken] at first
  obtain ⟨functions, structs, enums, globals⟩ := absorb_tables taken
  refine ⟨h.functions.trans (behind functions), h.structs.trans (behind structs), h.enums.trans (behind enums), ?_, ?_⟩
  · exact (h.globals.mono fun e => newConstant (behind enums)).extend (behind globals)
  · rw [imported_absorb taken]
    exact h.imported.trans (prefix_append _ _)

end Begins

end Context

namespace State

variable {s s₁ s₂ : State}

/-- What is left of the state `s`, in which no block was open, in the state `s₁`: the program goes on, what was known
stays, and a struct that is open is a new one. -/
structure Continues (s s₁ : State) : Prop where
  program : s.program <+: s₁.program
  context : s.context.Begins s₁.context
  record : ∀ d, s₁.record = some (.struct d) → d.name ∉ s.context.structs.names

namespace Continues

theorem refl (noRecord : s.record = none) : s.Continues s where
  program := prefix_refl _
  context := .refl _
  record d open' := by
    rw [noRecord] at open'
    cases open'

/-- What was known stays, and a struct that is open is a new one. -/
def Knows (s s₁ : State) : Prop :=
  s.context.Begins s₁.context ∧ ∀ d, s₁.record = some (.struct d) → d.name ∉ s.context.structs.names

theorem declares (h : s.Continues s₁) (apart : s₁.Apart) (declared : s₁.Declares x s₂)
    (plain : s₁.function = none → PlainName x.name) : Knows s s₂ := by
  cases declared with
  | asGlobal may outside _ fresh _ =>
    exact ⟨h.context.addGlobal apart.rooted (plain outside) may.undefined fresh _, h.record⟩
  | asLocal => exact ⟨h.context, h.record⟩

theorem knows_step (h : s.Continues s₁) (apart : s₁.Apart) (change : Step settings s₁ s₂) : Knows s s₂ := by
  have same : ∀ {s₂ : State}, s₂.context = s₁.context → s₂.record = s₁.record → Knows s s₂ := by
    intro s₂ context record
    rw [Knows, context, record]
    exact ⟨h.context, h.record⟩
  cases change with
  | idle => exact ⟨h.context, h.record⟩
  | mark key => exact ⟨h.context.markImported key, h.record⟩
  | header =>
    rw [Knows, emitted_context, emitted_record]
    exact ⟨h.context.markImported _, h.record⟩
  | declare _ declared inside => exact declares h apart declared fun outside => absurd outside inside
  | define _ declared _ _ _ _ plain =>
    rw [Knows, emitted_context, emitted_record]
    exact declares h apart declared fun _ => plain
  | loop brace _ _ _ _ inside _ counts _ _ =>
    rw [Knows, emitted_context, emitted_record]
    cases counts with
    | known => exact ⟨h.context, h.record⟩
    | introduced _ declared =>
      have opened : s.Continues (s₁.opened { kind := .loop, token := brace, framed := true }) :=
        ⟨h.program, h.context, h.record⟩
      exact declares opened ⟨apart.rooted, apart.awaits⟩ declared fun outside => absurd outside inside
  | @fields d record _ _ =>
    rw [Knows, finishedFields, emitted_context, emitted_context, emitted_record, emitted_record]
    refine ⟨h.context.addStruct (h.record d record) _ _, fun d' open' => ?_⟩
    cases open'
    exact h.record d record
  | @function t brace sig placeholders _ place fresh =>
    rw [Knows, entered, opened, emitted_context, emitted_record]
    refine ⟨h.context.registered fresh (fun method => ?_) _, h.record⟩
    rcases place with ⟨-, -, none⟩ | ⟨d, record, -, same⟩
    · exact absurd none method
    · rw [same]
      exact h.record d record
  | @struct t _ name generics _ _ fresh =>
    rw [Knows, recorded, opened, emitted_context, emitted_record]
    refine ⟨h.context, fun d open' mem => ?_⟩
    cases open'
    exact h.context.not_defines (Context.definedIn?_eq_none.mp fresh) ⟨.structs, by decide, mem⟩
  | enum =>
    rw [Knows, recorded, opened, emitted_context, emitted_record]
    exact ⟨h.context, fun _ open' => by cases open'⟩
  | @structField d _ _ _ record =>
    refine ⟨h.context, fun d' open' => ?_⟩
    cases open'
    exact h.record d record
  | enumField | closeStruct => exact ⟨h.context, fun _ open' => by cases open'⟩
  | @closeEnum _ _ d _ _ record =>
    obtain ⟨-, free, -⟩ := apart.awaits.enum record
    refine ⟨?_, fun _ open' => by cases open'⟩
    change s.context.Begins (s₁.finishedEnum d).context
    rw [finishedEnum, emitted_context, emitted_context, emitted_context]
    exact h.context.addEnum free _
  | _ => exact same (by simp [State.opened]) (by simp [State.opened])

theorem step (h : s.Continues s₁) (apart : s₁.Apart) (change : Step settings s₁ s₂) : s.Continues s₂ := by
  have adds : s₁.Adds (fun _ => True) s₂ := .step change (fun _ _ => trivial) fun _ _ => trivial
  obtain ⟨ns, listed, -⟩ := adds.listed
  obtain ⟨context, record⟩ := h.knows_step apart change
  exact ⟨h.program.trans (listed ▸ prefix_append _ _), context, record⟩

theorem imports (h : s.Continues s₁) (t : Token) (source : Source)
    (taken : (s₁.noted t source).context.absorb c.context = (merged, none)) :
    s.Continues ((s₁.noted t source).absorbed c merged) := by
  have marked : s.context.Begins (s₁.noted t source).context := by
    rw [noted, emitted_context]
    exact h.context.markImported _
  have listed : s₁.program <+: (s₁.noted t source).program := by
    unfold noted emitted
    dsimp only
    split
    · exact prefix_refl _
    · exact prefix_append _ _
  refine ⟨(h.program.trans listed).trans (prefix_append _ _), marked.absorb taken, ?_⟩
  simpa [State.absorbed, noted] using h.record

end Continues

theorem Steps.continues (nested : s.Nested) (apart : s.Apart) (noRecord : s.record = none)
    (h : Steps settings s s₁) : s.Continues s₁ := by
  induction h with
  | refl => exact .refl noRecord
  | step before change ih => exact (ih nested apart noRecord).step (before.growsTo nested apart).1 change
  | imports _ _ _ _ _ _ taken ih _ => exact (ih nested apart noRecord).imports _ _ taken

end State

namespace Parse

theorem bind_ok {k : α → Parse β} (read : (x >>= k) settings s = .ok b s') :
    ∃ a s₁, x settings s = .ok a s₁ ∧ k a settings s₁ = .ok b s' := by
  rw [reading_bind] at read
  split at read
  · next a s₁ first => exact ⟨a, s₁, first, read⟩
  · cases read

theorem tokens_append (importer : Importer) (toks toks' : List Token) :
    tokens importer (toks ++ toks') = tokens importer toks >>= fun _ => tokens importer toks' := by
  induction toks with
  | nil => rfl
  | cons t toks ih => rw [cons_append, tokens, tokens, ih, bind_assoc]

theorem endOfFile_ok {t : Token} (ends : t.kind = .endOfFile)
    (read : tokens importer [t] settings s = .ok () s') : s' = s ∧ s.blocks = [] := by
  have final : Ensures True settings s (token importer t) fun _ s' => s' = s ∧ s.blocks = [] := by
    unfold token Token.isTrivia
    rw [ends]
    exact .finishFile fun _ blocks => ⟨rfl, blocks⟩
  obtain ⟨_, s₁, first, last⟩ := bind_ok read
  obtain ⟨-, rfl⟩ := EStateM.Result.ok.inj last
  exact final.of_ok first

theorem openFile_whole (read : openFile path text settings s = .ok toks s') :
    (tokenize (settings.feature .comments) s.session.files.length text).failure = none := by
  have opening : Ensures True settings s (openFile path text) fun _ _ =>
      (tokenize (settings.feature .comments) s.session.files.length text).failure = none := by
    unfold openFile
    refine .get (.read (.change_bind (g := fun _ => _) rfl ?_))
    split
    · exact .fail trivial
    · next whole => exact .pure whole
  exact opening.of_ok read

theorem enterMain_whole {path text : String}
    (read : enterMain fuel path text settings (.unread library) = .ok toks s) :
    (tokenize (settings.feature .comments) 0 text).failure = none := by
  obtain ⟨_, s₁, opened, -⟩ := bind_ok read
  obtain ⟨_, s₂, marked, opened⟩ := bind_ok opened
  obtain ⟨-, rfl⟩ := EStateM.Result.ok.inj marked
  exact openFile_whole opened

end Parse

theorem tokenize_append (comments : Bool) (file : Nat) (text rest : String)
    (whole : (tokenize comments file text).failure = none) :
    ∃ body final more, (tokenize comments file text).tokens = body ++ [final] ∧ final.kind = .endOfFile ∧
      (tokenize comments file (text ++ "\n" ++ rest)).tokens = body ++ more := by
  obtain ⟨body, q, first, both⟩ := Tokens.scan_append comments file ⟨1, 1⟩ text.toList rest.toList whole
  have lines : (text ++ "\n" ++ rest).toList = text.toList ++ '\n' :: rest.toList := by simp
  have tokens := congrArg Tokens.tokens both
  rw [← lines] at tokens
  exact ⟨body, _, _, first, rfl, tokens⟩

namespace Moment

open Parse

theorem of_enterMain {s : State}
    (read : enterMain (library.bound + 1) path text settings (.unread library) = .ok toks s) :
    Moment settings library path text (library.bound + 1) s toks := by
  obtain ⟨found, s₀, opened, read⟩ := bind_ok read
  change (if settings.feature .builtin = true then get >>= fun s =>
      importFile (library.bound + 1) (builtinToken s) Standard.builtinPath >>= fun _ => pure found
    else pure found) settings s₀ = _ at read
  split at read
  · next on =>
    obtain ⟨_, s₁, imported, read⟩ := bind_ok (x := importFile _ (builtinToken s₀) _) read
    obtain ⟨rfl, rfl⟩ := EStateM.Result.ok.inj read
    exact .mainBehind opened on imported
  · next off =>
    obtain ⟨rfl, rfl⟩ := EStateM.Result.ok.inj read
    exact .main opened (by simpa using off)

theorem steps_of_tokens (h : Moment settings library path text fuel s toks)
    (read : tokens (importFile fuel) toks settings s = .ok () s') : State.Steps settings s s' := by
  induction toks generalizing s with
  | nil =>
    obtain ⟨-, rfl⟩ := EStateM.Result.ok.inj read
    exact .refl _
  | cons t toks ih =>
    obtain ⟨_, s₁, first, others⟩ := bind_ok read
    exact (h.steps_of_token first).trans (ih (.next h first) others)

end Moment

namespace Parse

theorem Agrees.of_ok
    {R : List SourceFile → α → β → Prop} (h : Agrees K files x y R) {s s' after : State}
    (alike : s.Alike K files s') (notices : Notices.Alike K files s.session.notices s'.session.notices)
    (read : x K.first s = .ok a after) :
    ∃ more b after', y K.second s' = .ok b after' ∧ files <+: more ∧ R more a b ∧ after.Alike K more after' ∧
      Notices.Alike K more after.session.notices after'.session.notices := by
  have met := (h s s' alike).2 notices
  rw [read] at met
  generalize y K.second s' = q at met ⊢
  cases met with
  | ok sub result states notices => exact ⟨_, _, _, rfl, sub, result, states, notices⟩

theorem enterMain_agrees_ofLines (fuel : Nat) (path : String)
    (whole : (tokenize (settings.feature .comments) 0 text).failure = none)
    (whole' : (tokenize (settings.feature .comments) 0 text').failure = none) :
    Agrees (.ofLines settings) [] (enterMain fuel path text) (enterMain fuel path text') fun _ toks toks' =>
      toks = (tokenize (settings.feature .comments) 0 text).tokens ∧
      toks' = (tokenize (settings.feature .comments) 0 text').tokens := by
  have failure {R : Token × LexProblem → Token × LexProblem → Prop} :
      Option.Rel R (tokenize (settings.feature .comments) 0 text).failure
        (tokenize (settings.feature .comments) 0 text').failure := by
    rw [whole, whole']
    exact .none
  have source : (Comparison.ofLines settings).source ⟨path, text⟩ ⟨path, text'⟩ := rfl
  exact (enterMain_agrees fuel path (openFile_agrees path source rfl rfl failure fun _ => trivial) rfl).mono
    fun _ _ _ _ h => h.2

theorem mainFile_append
    (read : mainFile (library.bound + 1) path text settings (.unread library) = .ok () s₁)
    (read' : mainFile (library.bound + 1) path (text ++ "\n" ++ rest) settings (.unread library) = .ok () s₃) :
    ∃ s₂ more, Moment settings library path (text ++ "\n" ++ rest) (library.bound + 1) s₂ more ∧
      tokens (importFile (library.bound + 1)) more settings s₂ = .ok () s₃ ∧ s₂.blocks = [] ∧
      s₂.program = s₁.program ∧ s₂.context = s₁.context ∧
      s₁.session.notices <+: s₃.session.notices := by
  rw [mainFile_eq_enterMain] at read read'
  obtain ⟨toks, a₁, entered, read⟩ := bind_ok read
  obtain ⟨toks', a₂, entered', read'⟩ := bind_ok read'
  have whole := enterMain_whole entered
  have whole' := enterMain_whole entered'
  obtain ⟨body, final, more, first, ends, both⟩ := tokenize_append _ 0 text rest whole
  -- Both readings enter the main file alike, and read the same tokens up to the end of the first lines.
  have enters := enterMain_agrees_ofLines (library.bound + 1) path whole whole'
  obtain ⟨files, found, a, met, -, ⟨rfl, rfl⟩, alike, notices⟩ :=
    enters.of_ok (.initial _ library trivial) ⟨.nil, fun _ => forall_mem_nil _⟩ entered
  obtain ⟨rfl, rfl⟩ := EStateM.Result.ok.inj (entered'.symm.trans met)
  rw [first, tokens_append] at read
  obtain ⟨_, b₁, before, final⟩ := bind_ok read
  obtain ⟨rfl, closed⟩ := endOfFile_ok ends final
  have agrees (files : List SourceFile) (toks : List Token) :
      Agrees (.ofLines settings) files (tokens (importFile (library.bound + 1)) toks)
        (tokens (importFile (library.bound + 1)) toks) fun _ _ _ => True :=
    tokens_agrees (importFile_agrees _ _) (Comparison.tokens_ofLines settings files toks)
  obtain ⟨files', _, b₂, before', -, -, alike', notices'⟩ := (agrees files body).of_ok alike notices before
  have moment := Moment.of_enterMain entered'
  rw [both] at moment read'
  rw [tokens_append] at read'
  obtain ⟨_, b, met, after⟩ := bind_ok read'
  obtain ⟨-, rfl⟩ := EStateM.Result.ok.inj (before'.symm.trans met)
  refine ⟨b₂, more, moment.tokens_ok met, after, ?_, ?_, alike'.context, ?_⟩
  · have blocks := alike'.blocks
    rw [closed] at blocks
    exact forall₂_nil_left_iff.mp blocks
  · exact alike'.program_eq fun _ _ same => same
  · have kept := ((agrees files' more) _ _ alike').1.notices
    change b₂.session.notices <+: (finalState (tokens _ more settings b₂)).session.notices at kept
    rwa [after, notices'.eq fun _ _ same => same] at kept

end Parse

/-- More lines change nothing about the lines before them: the entries of the program come first, with their nodes,
files and places, what was known stays, except that constants of new enums can replace global variables, and the same
notices are raised first. -/
theorem compile_append {settings : Settings} {library : Library} {path text rest : String}
    (accepted : (compile settings library path text).stop = none)
    (accepted' : (compile settings library path (text ++ "\n" ++ rest)).stop = none) :
    let first := compile settings library path text
    let whole := compile settings library path (text ++ "\n" ++ rest)
    first.program <+: whole.program ∧ first.context.Begins whole.context ∧
      first.session.notices <+: whole.session.notices := by
  obtain ⟨s₁, read, first⟩ := mainFile_of_accepted accepted
  obtain ⟨s₃, read', whole⟩ := mainFile_of_accepted accepted'
  obtain ⟨s₂, more, moment, after, bottom, program, context, notices⟩ := Parse.mainFile_append read read'
  have ready : s₂.Ready True _ := moment.ready (.inl trivial)
  have noRecord : s₂.record = none := (ready.nested.of_blocks_nil bottom).2.1
  have continues := (moment.steps_of_tokens after).continues ready.nested moment.apart noRecord
  rw [first, whole]
  refine ⟨?_, ?_, notices⟩
  · rw [← program]
    exact continues.program
  · rw [← context]
    exact continues.context

/-- A global variable with a field. -/
def colored : String :=
  "P :: struct \x7b Red: int; \x7d Color: P; // the last line"

/-- An enum that is called like the global variable, with a constant that is called like its field. -/
def recolored : String :=
  "Color :: enum \x7b Red; \x7d f :: () \x7b \x7d"

theorem compile_append_colored :
    let first := compile Settings.plain (.memory []) "main.imp" colored
    let whole := compile Settings.plain (.memory []) "main.imp" (colored ++ "\n" ++ recolored)
    first.stop = none ∧ whole.stop = none ∧ redIsConstant first.context = some false ∧
      redIsConstant whole.context = some true ∧ first.program <+: whole.program ∧
      first.context.Begins whole.context := by
  have before : acceptedWith colored (fun c => redIsConstant c == some false) = true := by decide +kernel
  have after : acceptedWith (colored ++ "\n" ++ recolored) (fun c => redIsConstant c == some true) = true := by
    decide +kernel
  obtain ⟨accepted, isVariable⟩ := of_acceptedWith before
  obtain ⟨accepted', isConstant⟩ := of_acceptedWith after
  obtain ⟨program, context, -⟩ := compile_append accepted accepted'
  exact ⟨accepted, accepted', by simpa using isVariable, by simpa using isConstant, program, context⟩

end Impulse
