import Impulse.Proofs.Balance

/-!
# Paths and shadowed declarations

A path `b.x` stands for a field variable, and field variables are found by their full names alone. So a nearer
declaration of `b` takes the place of an outer one name by name: a field variable of the outer declaration can
still be reached through `b` if the nearer declaration brings no variable of the same name. This file follows
the declarations that are in force through a reading, and says where the variable that a path stands for can
come from.
-/

namespace Impulse

open List

variable (c : Context)

namespace Text

theorem splitWhere_ne_nil (sep : Char → Bool) (cs : List Char) : splitWhere sep cs ≠ [] := by
  cases cs with
  | nil => exact nofun
  | cons c cs =>
    rw [splitWhere]
    split
    · exact nofun
    · split <;> exact nofun

theorem splitWhere_of_none (h : ∀ c ∈ cs, sep c = false) : splitWhere sep cs = [cs] := by
  induction cs with
  | nil => rfl
  | cons c cs ih =>
    rw [splitWhere, h c (.head _), ih fun d hd => h d (.tail _ hd)]
    rfl

theorem splitWhere_append_sep {c : Char} (hc : sep c = true) (front back : List Char) :
    splitWhere sep (front ++ c :: back) = splitWhere sep front ++ splitWhere sep back := by
  induction front with
  | nil => simp [splitWhere, hc]
  | cons d front ih =>
    rw [cons_append, splitWhere, splitWhere, ih]
    split
    · rfl
    · cases cut : splitWhere sep front with
      | nil => exact absurd cut (splitWhere_ne_nil sep front)
      | cons piece pieces => rfl

theorem splitWhere_append (h : ∀ c ∈ front, sep c = false) {c : Char} (hc : sep c = true)
    (back : List Char) : splitWhere sep (front ++ c :: back) = front :: splitWhere sep back := by
  rw [splitWhere_append_sep hc, splitWhere_of_none h]
  rfl

end Text

theorem linkSign_eq (lookup : String → Option Variable) (path : String) :
    linkSign lookup path = "." ∨ linkSign lookup path = "->" := by
  unfold linkSign
  split
  · split
    · exact .inr rfl
    · exact .inl rfl
  · exact .inl rfl

theorem PathInto.foldl (h : PathInto b path) (lookup : String → Option Variable)
    (parts : List String) :
    PathInto b (parts.foldl (fun path part => path ++ linkSign lookup path ++ part) path) := by
  induction parts generalizing path with
  | nil => exact h
  | cons part parts ih => exact ih ((h.append _).append _)

theorem pathInto_spelling {lookup : String → Option Variable} {b rest : String}
    (named : ∀ n v, lookup n = some v → v.name = n) (plain : PlainName b) :
    PathInto b (spelling lookup (b ++ "." ++ rest)) := by
  have point : Text.contains (b ++ "." ++ rest) '.' = true := by simp [Text.contains]
  unfold spelling
  rw [if_neg (by simp [point])]
  split
  · next v found =>
    rw [named _ v found]
    exact ⟨rest, .inl rfl⟩
  · have cut : Text.splitWhere (· == '.') (b.toList ++ '.' :: rest.toList)
        = b.toList :: Text.splitWhere (· == '.') rest.toList := by
      refine Text.splitWhere_append (fun c hc => ?_) rfl _
      rw [beq_eq_false_iff_ne]
      rintro rfl
      exact plain.noPoint hc
    have parts : Text.splitOn '.' (b ++ "." ++ rest) = b :: Text.splitOn '.' rest := by
      simp [Text.splitOn, cut]
    rw [parts]
    dsimp only
    cases split : Text.splitOn '.' rest with
    | nil => exact absurd (map_eq_nil_iff.mp split) (Text.splitWhere_ne_nil _ _)
    | cons piece pieces =>
      have first : PathInto b (b ++ linkSign lookup b ++ piece) := by
        rcases linkSign_eq lookup b with sign | sign
        · exact ⟨piece, .inl (by rw [sign])⟩
        · exact ⟨piece, .inr (by rw [sign])⟩
      exact first.foldl lookup pieces

/-- The declarations that are in force: those of the frames, with the latest ones first, and the global ones. The
enums that brought constants are listed as well. -/
structure History where
  frames : List (List Declaration) := [[]]
  globals : List Declaration := []
  enums : List EnumDraft := []

namespace History

def inForce (h : History) : List Declaration :=
  h.frames.flatten ++ h.globals

/-- The declaration `d` is the nearest one of the name `b`, and `outer` are the declarations around it. -/
def Nearest (h : History) (b : String) (d : Declaration) (outer : List Declaration) : Prop :=
  ∃ nearer, h.inForce = nearer ++ d :: outer ∧ d.var.name = b ∧ ∀ d' ∈ nearer, d'.var.name ≠ b

/-- Where the variable `y` that a path into `b` stands for can come from, if `d` is the nearest declaration of
`b` and `outer` are the declarations around it. -/
inductive Source (h : History) (b : String) (d : Declaration) (outer : List Declaration)
    (y : Variable) : Prop
  /-- It is a field variable of the nearest declaration. -/
  | nearest (field : y ∈ d.fields)
  /-- It is a field variable of a declaration that is shadowed, and the nearest declaration brings no variable of
  its name. -/
  | shadowed {d' : Declaration} (mem : d' ∈ outer) (named : d'.var.name = b) (field : y ∈ d'.fields)
      (free : ∀ z ∈ d.fields, z.name ≠ y.name)
  /-- It comes with a variable whose own name goes on behind `b`. -/
  | longer {d' : Declaration} {more : String} (mem : d' ∈ h.inForce) (brought : y ∈ d'.introduced)
      (named : d'.var.name = b ++ more) (goesOn : more ≠ "")
  /-- It is a constant of an enum. -/
  | constant {e : EnumDraft} (mem : e ∈ h.enums) (brought : y ∈ Parse.enumConstants e)

end History

/-- Everything that can be seen comes from the declarations in force. -/
structure State.DeclaredBy (s : State) (h : History) : Prop where
  scope : s.scope.DeclaredBy h.frames
  globals : s.context.globals.DeclaredBy h.globals h.enums

namespace State.DeclaredBy

variable {s : State}

theorem of_scope (hs : s.DeclaredBy h) (found : s.scope.find? n = some y) :
    y.name = n ∧ ∃ nearer d outer, h.frames.flatten = nearer ++ d :: outer ∧ y ∈ d.introduced ∧
      ∀ d' ∈ nearer, ∀ z ∈ d'.introduced, z.name ≠ n := by
  rw [hs.scope.find?_eq] at found
  obtain ⟨nearer, d, outer, split, brings, free⟩ := List.findSome?_eq_some_iff.mp found
  obtain ⟨mem, named⟩ := Declaration.mem_of_find? brings
  exact ⟨named, nearer, d, outer, split, mem, fun d' hd' => Declaration.find?_eq_none.mp (free d' hd')⟩

theorem free_of_scope (hs : s.DeclaredBy h) (unseen : s.scope.find? n = none) :
    ∀ d ∈ h.frames.flatten, ∀ z ∈ d.introduced, z.name ≠ n := by
  rw [hs.scope.find?_eq] at unseen
  exact fun d hd => Declaration.find?_eq_none.mp (List.findSome?_eq_none_iff.mp unseen d hd)

theorem resolve?_eq (scope : Scope) (found : c.resolve? scope n = some y) :
    scope.find? n = some y ∨ scope.find? n = none ∧ c.globals.get? n = some y := by
  unfold Context.resolve? at found
  cases inScope : scope.find? n with
  | some z =>
    rw [inScope] at found
    exact .inl found
  | none =>
    rw [inScope] at found
    exact .inr ⟨rfl, found⟩

variable (hs : s.DeclaredBy h)
include hs

theorem name_of_resolve? (found : s.context.resolve? s.scope n = some y) : y.name = n := by
  rcases resolve?_eq _ _ found with local' | ⟨-, global⟩
  · exact (hs.of_scope local').1
  · exact (hs.globals.origin n y global).1

theorem source_of_local (plain : PlainName b) (into : PathInto b n) (found : s.context.resolve? s.scope n = some y) (split : h.frames.flatten = nearer ++ d :: outer)
    (others : ∀ d' ∈ nearer, d'.var.name ≠ b) : h.Source b d (outer ++ h.globals) y := by
  have named := hs.name_of_resolve? found
  rw [← named] at into
  rcases resolve?_eq _ _ found with inScope | ⟨unseen, inGlobals⟩
  · obtain ⟨-, nearer', d', outer', split', brought, free⟩ := hs.of_scope inScope
    rcases plain.field_or_longer into brought with ⟨same, field⟩ | ⟨more, goesOn, name⟩
    · -- The declaration that brings the variable is the nearest one of `b`, or lies behind it.
      rw [split] at split'
      rcases append_eq_append_iff.mp split' with ⟨between, hnearer', hd⟩ | ⟨between, hnearer, hd'⟩
      · cases between with
        | nil =>
          obtain rfl := (List.cons.inj hd).1
          exact .nearest field
        | cons d₁ between =>
          obtain ⟨rfl, houter⟩ := List.cons.inj hd
          have mem : d' ∈ outer ++ h.globals := by simp [houter]
          have nearest : d ∈ nearer' := by simp [hnearer']
          refine .shadowed mem same field fun z hz => ?_
          rw [named]
          exact free d nearest z (Declaration.mem_introduced.mpr (.inr hz))
      · cases between with
        | nil =>
          obtain rfl := (List.cons.inj hd').1
          exact .nearest field
        | cons d₁ between =>
          obtain ⟨rfl, -⟩ := List.cons.inj hd'
          refine absurd same (others d' ?_)
          simp [hnearer]
    · have mem : d' ∈ h.inForce := by simp [History.inForce, split']
      exact .longer mem brought name goesOn
  · obtain ⟨-, ⟨d', hd', brought⟩ | ⟨e, he, brought⟩⟩ := hs.globals.origin n y inGlobals
    · rcases plain.field_or_longer into brought with ⟨same, field⟩ | ⟨more, goesOn, name⟩
      · refine .shadowed (mem_append_right _ hd') same field fun z hz => ?_
        rw [named]
        refine hs.free_of_scope unseen d ?_ z (Declaration.mem_introduced.mpr (.inr hz))
        simp [split]
      · exact .longer (mem_append_right _ hd') brought name goesOn
    · exact .constant he brought

theorem source_of_global (plain : PlainName b) (into : PathInto b n) (found : s.context.resolve? s.scope n = some y)
    (unseen : s.scope.find? b = none) (split : h.globals = nearer ++ d :: outer)
    (others : ∀ d' ∈ nearer ++ outer, d'.var.name ≠ b) : h.Source b d outer y := by
  have named := hs.name_of_resolve? found
  rw [← named] at into
  rcases resolve?_eq _ _ found with inScope | ⟨-, inGlobals⟩
  · obtain ⟨-, nearer', d', outer', split', brought, -⟩ := hs.of_scope inScope
    have mem : d' ∈ h.frames.flatten := by simp [split']
    rcases plain.field_or_longer into brought with ⟨same, -⟩ | ⟨more, goesOn, name⟩
    · exact absurd same (hs.free_of_scope unseen d' mem d'.var d'.var_mem)
    · exact .longer (mem_append_left _ mem) brought name goesOn
  · obtain ⟨-, ⟨d', hd', brought⟩ | ⟨e, he, brought⟩⟩ := hs.globals.origin n y inGlobals
    · rcases plain.field_or_longer into brought with ⟨same, field⟩ | ⟨more, goesOn, name⟩
      · by_cases isNearest : d' = d
        · subst isNearest
          exact .nearest field
        · refine absurd same (others d' ?_)
          simpa [split, isNearest] using hd'
      · exact .longer (mem_append_right _ hd') brought name goesOn
    · exact .constant he brought

/-- The variable that a path into `b` stands for has the spelling of the path as its name, and comes from one of
four sources. -/
theorem source (plain : PlainName b) (visible : s.context.resolve? s.scope b = some x)
    (found : s.context.resolvePath? s.scope (b ++ "." ++ rest) = some y) :
    y.name = s.context.spell s.scope (b ++ "." ++ rest) ∧
      ∃ d outer, h.Nearest b d outer ∧ d.var = x ∧ h.Source b d outer y := by
  have named : ∀ n v, s.context.resolve? s.scope n = some v → v.name = n :=
    fun n v => hs.name_of_resolve?
  have into : PathInto b (s.context.spell s.scope (b ++ "." ++ rest)) :=
    pathInto_spelling named plain
  refine ⟨named _ y found, ?_⟩
  rcases resolve?_eq _ _ visible with inScope | ⟨unseen, inGlobals⟩
  · obtain ⟨hx, nearer, d, outer, split, brought, free⟩ := hs.of_scope inScope
    obtain rfl := Declaration.var_of_plain brought (hx.symm ▸ plain)
    have others : ∀ d' ∈ nearer, d'.var.name ≠ b := fun d' hd' =>
      free d' hd' d'.var d'.var_mem
    refine ⟨d, outer ++ h.globals, ⟨nearer, ?_, hx, others⟩, rfl, ?_⟩
    · simp [History.inForce, split]
    · exact hs.source_of_local plain into found split others
  · obtain ⟨d, hd, rfl⟩ := hs.globals.of_plain plain inGlobals
    have hx := (hs.globals.origin b _ inGlobals).1
    obtain ⟨nearer, outer, split⟩ := append_of_mem hd
    have distinct := hs.globals.distinct
    rw [split, map_append, map_cons, hx] at distinct
    have others : ∀ d' ∈ nearer ++ outer, d'.var.name ≠ b := by
      intro d' hd' same
      obtain ⟨-, behind, apart⟩ := nodup_append.mp distinct
      rcases mem_append.mp hd' with front | back
      · exact apart _ (mem_map_of_mem front) b (.head _) same
      · exact (nodup_cons.mp behind).1 (same ▸ mem_map_of_mem back)
    refine ⟨d, outer, ⟨h.frames.flatten ++ nearer, ?_, hx, ?_⟩, rfl, ?_⟩
    · simp [History.inForce, split]
    · intro d' hd'
      rcases mem_append.mp hd' with inFrame | global
      · exact hs.free_of_scope unseen d' inFrame d'.var d'.var_mem
      · exact others d' (mem_append_left _ global)
    · exact hs.source_of_global plain into found unseen split others

end State.DeclaredBy

namespace History

def opened (h : History) : History :=
  { h with frames := [] :: h.frames }

def closed (h : History) : History :=
  { h with frames := h.frames.tail }

def addLocal (h : History) (d : Declaration) : History :=
  { h with frames := h.frames.modifyHead (d :: ·) }

def addGlobal (h : History) (d : Declaration) : History :=
  { h with globals := d :: h.globals }

def addEnum (h : History) (e : EnumDraft) : History :=
  { h with enums := e :: h.enums }

def inChild (h : History) : History :=
  { h with frames := [[]] }

def behind (h c : History) : History :=
  { c with frames := h.frames }

/-- How the declarations in force change with the state. -/
inductive After (s s' : State) (h : History) : History → Prop
  | same (scope : s'.scope = s.scope) (globals : s'.context.globals = s.context.globals) :
      After s s' h h
  | opened {kind : FrameKind} (scope : s'.scope = s.scope.push kind)
      (globals : s'.context.globals = s.context.globals) : After s s' h h.opened
  | closed (scope : s.scope.pop? = some s'.scope)
      (globals : s'.context.globals = s.context.globals) : After s s' h h.closed
  | addLocal {x : Variable} (scope : s.scope.declareList? (s.context.introduced x) = some s'.scope)
      (globals : s'.context.globals = s.context.globals) : After s s' h (h.addLocal ⟨s.context, x⟩)
  /-- The counter of a loop is declared in the frame of the loop. -/
  | addCounter {x : Variable} {kind : FrameKind}
      (scope : (s.scope.push kind).declareList? (s.context.introduced x) = some s'.scope)
      (globals : s'.context.globals = s.context.globals) :
      After s s' h (h.opened.addLocal ⟨s.context, x⟩)
  | addGlobal {x : Variable} {origin : String} (scope : s'.scope = s.scope)
      (fresh : s.context.globals.get? x.name = none)
      (globals : s'.context.globals = (s.context.introduced x).foldl (fun t y => t.add y.name y origin)
        s.context.globals) : After s s' h (h.addGlobal ⟨s.context, x⟩)
  | addEnum {e : EnumDraft} {origin : String} (scope : s'.scope = s.scope)
      (globals : s'.context.globals = (Parse.enumConstants e).foldl (fun t y => t.add y.name y origin)
        s.context.globals) : After s s' h (h.addEnum e)

end History

namespace State

/-- Readings as in `State.Steps`, with the declarations in force. -/
inductive Run (settings : Settings) : State → History → State → History → Prop
  | refl (s : State) (h : History) : Run settings s h s h
  | step {s s₁ s₂ : State} {h h₁ h₂ : History} (run : Run settings s h s₁ h₁)
      (step : Step settings s₁ s₂) (after : History.After s₁ s₂ h₁ h₂) : Run settings s h s₂ h₂
  | imports {s s₁ c : State} {h h₁ hc : History} {t last : Token} {source : Source}
      {merged : Context}
      (run : Run settings s h s₁ h₁)
      (inner : Run settings ((s₁.noted t source).child source last) h₁.inChild c hc)
      (taken : (s₁.noted t source).context.absorb c.context = (merged, none)) :
      Run settings s h ((s₁.noted t source).absorbed c merged) (h₁.behind hc)

/-- The states that the reading of a program can reach, in the main file and in the imported ones, with the
declarations in force. -/
inductive Reached (settings : Settings) (library : Library) (path text : String) :
    State → History → Prop
  | start (last : Token) : Reached settings library path text (.start library path text last) {}
  | run {s s' : State} {h h' : History} (reached : Reached settings library path text s h)
      (run : Run settings s h s' h') : Reached settings library path text s' h'
  | child {s : State} {h : History} (reached : Reached settings library path text s h) (t : Token)
      (source : Source) (last : Token) :
      Reached settings library path text ((s.noted t source).child source last) h.inChild

end State

namespace History.After

theorem globals_subset (after : After s s' h h') : h.globals ⊆ h'.globals ∧ h.enums ⊆ h'.enums := by
  cases after with
  | addGlobal => exact ⟨subset_cons_self _ _, List.Subset.refl _⟩
  | addEnum => exact ⟨List.Subset.refl _, subset_cons_self _ _⟩
  | _ => exact ⟨List.Subset.refl _, List.Subset.refl _⟩

theorem congr (after : After s s₁ h h') (hscope : s'.scope = s₁.scope)
    (hglobals : s'.context.globals = s₁.context.globals) : After s s' h h' := by
  cases after with
  | same scope globals => exact .same (hscope.trans scope) (hglobals.trans globals)
  | opened scope globals => exact .opened (hscope.trans scope) (hglobals.trans globals)
  | closed scope globals => exact .closed (hscope ▸ scope) (hglobals.trans globals)
  | addLocal scope globals => exact .addLocal (hscope ▸ scope) (hglobals.trans globals)
  | addCounter scope globals => exact .addCounter (hscope ▸ scope) (hglobals.trans globals)
  | addGlobal scope fresh globals => exact .addGlobal (hscope.trans scope) fresh (hglobals.trans globals)
  | addEnum scope globals => exact .addEnum (hscope.trans scope) (hglobals.trans globals)

theorem declaredBy (after : After s s' h h') (hs : s.DeclaredBy h) : s'.DeclaredBy h' := by
  obtain ⟨scope, globals⟩ := hs
  cases after with
  | same hscope hglobals => exact ⟨hscope ▸ scope, hglobals ▸ globals⟩
  | opened hscope hglobals => exact ⟨hscope ▸ scope.push _, hglobals ▸ globals⟩
  | closed hscope hglobals => exact ⟨scope.pop hscope, hglobals ▸ globals⟩
  | addLocal hscope hglobals => exact ⟨scope.modifyHead hscope, hglobals ▸ globals⟩
  | addCounter hscope hglobals => exact ⟨(scope.push _).modifyHead hscope, hglobals ▸ globals⟩
  | @addGlobal x origin hscope fresh hglobals =>
    have declared := globals.declare (d := ⟨s.context, x⟩) fresh origin
    exact ⟨hscope ▸ scope, hglobals ▸ declared⟩
  | addEnum hscope hglobals => exact ⟨hscope ▸ scope, hglobals ▸ globals.enum _ _⟩

end History.After

namespace State

variable {s s' : State}

theorem Declares.after (declared : s.Declares x s') (h : History) : ∃ h', History.After s s' h h' := by
  cases declared with
  | asGlobal may outside bottom fresh declared => exact ⟨_, .addGlobal rfl fresh rfl⟩
  | asLocal may inside declared => exact ⟨_, .addLocal declared rfl⟩

theorem after_opened (b : Block) (scope : s'.scope = (s.opened b).scope)
    (globals : s'.context.globals = s.context.globals) (h : History) : ∃ h', History.After s s' h h' := by
  unfold State.opened at scope
  dsimp only at scope
  split at scope
  · exact ⟨_, .opened scope globals⟩
  · exact ⟨_, .same scope globals⟩

theorem Step.after (step : Step settings s s') (h : History) : ∃ h', History.After s s' h h' := by
  cases step with
  | idle | load | structField | enumField | closeStruct => exact ⟨h, .same rfl rfl⟩
  | mark | header | write | result => exact ⟨h, .same (by simp) (by simp)⟩
  | declare _ declared => exact declared.after h
  | define t declared =>
    obtain ⟨h', after⟩ := declared.after h
    exact ⟨h', after.congr (by simp) (by simp)⟩
  | @begin n b => exact after_opened b (by simp [State.opened]) (by simp [State.opened]) h
  | loop brace _ _ _ _ inside _ counts _ =>
    cases counts with
    | known =>
      refine after_opened { kind := .loop, token := brace, framed := true } ?_ ?_ h
      · simp
      · simp [State.opened]
    | introduced t declared =>
      cases declared with
      | asGlobal _ outside => exact absurd outside inside
      | @asLocal scope _ _ declared =>
        -- The frame of the loop is opened before its counter is declared.
        have after : History.After s
            { s.opened { kind := .loop, token := brace, framed := true } with scope := scope } h _ :=
          .addCounter declared rfl
        exact ⟨_, after.congr (by simp) (by simp)⟩
  | defer brace =>
    refine after_opened { kind := .deferred, token := brace, framed := true } ?_ ?_ h
    · rfl
    · rfl
  | fields => exact ⟨h, .same (by simp [State.finishedFields]) (by simp [State.finishedFields])⟩
  | function t brace =>
    refine after_opened { kind := .function, token := brace, framed := true } ?_ ?_ h
    · simp [State.entered, State.opened]
    · simp [State.entered, State.opened, registered_globals]
  | struct | enum => exact ⟨h, .same (by simp [State.recorded, State.opened]) (by simp [State.recorded, State.opened])⟩
  | @closeEnum b rest d =>
    exact ⟨h.addEnum d, .addEnum (by simp [State.finishedEnum]) (finishedEnum_globals s d)⟩
  | closeDeferred _ _ popped => exact ⟨_, .closed popped rfl⟩
  | closeOther t _ _ popped =>
    split at popped
    · exact ⟨_, .closed (by simpa using popped) (by simp)⟩
    · exact ⟨_, .same (by simpa using popped) (by simp)⟩

theorem Run.globals_subset (run : Run settings s h s' h') : h.globals ⊆ h'.globals ∧ h.enums ⊆ h'.enums := by
  induction run with
  | refl => exact ⟨List.Subset.refl _, List.Subset.refl _⟩
  | step _ _ after ih =>
    exact ⟨List.Subset.trans ih.1 after.globals_subset.1, List.Subset.trans ih.2 after.globals_subset.2⟩
  | imports _ _ _ ih ihChild =>
    exact ⟨List.Subset.trans ih.1 ihChild.1, List.Subset.trans ih.2 ihChild.2⟩

theorem DeclaredBy.child (hs : s.DeclaredBy h) (t : Token) (source : Source) (last : Token) :
    ((s.noted t source).child source last).DeclaredBy h.inChild := by
  refine ⟨.empty, ?_⟩
  show (s.noted t source).context.globals.DeclaredBy h.globals h.enums
  rw [noted_globals]
  exact hs.globals

theorem Run.declaredBy (run : Run settings s h s' h') (hs : s.DeclaredBy h) : s'.DeclaredBy h' := by
  induction run with
  | refl => exact hs
  | step _ _ after ih => exact after.declaredBy (ih hs)
  | @imports s s₁ c h h₁ hc t last source merged _ inner taken ih ihChild =>
    have known := ih hs
    have new := ihChild (known.child t source last)
    have sub : h₁.globals ⊆ hc.globals ∧ h₁.enums ⊆ hc.enums := inner.globals_subset
    have globals := (Context.absorb_tables taken).2.2.2
    rw [noted_globals] at globals
    refine ⟨?_, known.globals.absorb new.globals sub.1 sub.2 globals⟩
    have scope : ((s₁.noted t source).absorbed c merged).scope = s₁.scope := by
      simp [State.absorbed, State.noted]
    exact scope ▸ known.scope

theorem Steps.run (steps : Steps settings s s') (h : History) : ∃ h', Run settings s h s' h' := by
  induction steps generalizing h with
  | refl => exact ⟨h, .refl _ h⟩
  | step _ step ih =>
    obtain ⟨h₁, run⟩ := ih h
    obtain ⟨h₂, after⟩ := step.after h₁
    exact ⟨h₂, run.step step after⟩
  | imports _ _ _ _ _ _ taken ih ihChild =>
    obtain ⟨h₁, run⟩ := ih h
    obtain ⟨hc, inner⟩ := ihChild h₁.inChild
    exact ⟨h₁.behind hc, run.imports inner taken⟩

namespace Reached

theorem declaredBy (reached : Reached settings library path text s h) : s.DeclaredBy h := by
  induction reached with
  | start last => exact ⟨.empty, .empty⟩
  | run _ run ih => exact run.declaredBy ih
  | child _ t source last ih => exact ih.child t source last

theorem steps (reached : Reached settings library path text s h) (steps : Steps settings s s') :
    ∃ h', Reached settings library path text s' h' := by
  obtain ⟨h', run⟩ := steps.run h
  exact ⟨h', reached.run run⟩

end Reached

end State

namespace Moment

open Parse

theorem reached (h : Moment settings library path text fuel s toks) :
    ∃ h, State.Reached settings library path text s h := by
  refine invariant (P := fun s => ∃ h, State.Reached settings library path text s h) ?_ ?_ ?_ h
  · exact fun last => ⟨_, .start last⟩
  · exact fun _ ⟨h, reached⟩ changes => reached.steps changes
  · exact fun ⟨h, reached⟩ _ => ⟨h.inChild, reached.child _ _ _⟩

end Moment

/-- Every moment of a reading is in a state that is reached. In such a state, let `b` be the name of a variable
that can be seen, and let a path into `b` stand for a variable. Then that variable is called by the spelling of
the path. It is a field variable of the nearest declaration of `b`; or of an outer one, if the nearest
declaration brings no variable of its name; or it comes with a variable whose own name goes on behind `b`; or it
is a constant of an enum. -/
theorem field_access (settings : Settings) (library : Library) (path text : String) :
    (∀ fuel s toks, Moment settings library path text fuel s toks → ∃ h, State.Reached settings library path text s h) ∧
    ∀ s h, State.Reached settings library path text s h → ∀ b rest x y, PlainName b →
      s.context.resolve? s.scope b = some x → (s.view settings).find? (b ++ "." ++ rest) = some y →
      y.name = s.context.spell s.scope (b ++ "." ++ rest) ∧
        ∃ d outer, h.Nearest b d outer ∧ d.var = x ∧ h.Source b d outer y :=
  ⟨fun _ _ _ moment => moment.reached, fun _ _ reached _ _ _ _ plain visible found =>
    reached.declaredBy.source plain visible found⟩

/-- The state before the token of the given number in a main file without the builtin module. -/
def stateBefore? (settings : Settings) (library : Library) (path text : String) (number : Nat) :
    Option State :=
  match Parse.openMain path text settings { session := { library := library }, context := .initial } with
  | .ok toks s =>
    match Parse.tokens (Parse.importFile (library.bound + 1)) (toks.take number) settings s with
    | .ok _ s' => some s'
    | .error _ _ => none
  | .error _ _ => none

theorem Moment.of_stateBefore?
    (off : settings.feature .builtin = false) (h : stateBefore? settings library path text number = some s) :
    ∃ toks, Moment settings library path text (library.bound + 1) s toks := by
  unfold stateBefore? at h
  split at h
  · next toks s₀ opened =>
    split at h
    · next read =>
      cases h
      refine ⟨toks.drop number, Moment.tokens_ok ?_ read⟩
      rw [take_append_drop]
      exact .main opened off
    · cases h
  · cases h

/-- A variable that holds a struct is shadowed by a pointer to one. -/
def shadowing : String :=
  "P :: struct \x7b x: int; \x7d f :: () \x7b p: P; \x7b p: ^P; v: int = p.x; \x7d \x7d"

/-- Whether `p` is a pointer and `p.x` stands for a variable that is called by that name. -/
def seesShadowed (s : State) : Bool :=
  match s.context.resolve? s.scope "p", (s.view Settings.plain).find? "p.x" with
  | some x, some y => x.name == "p" && x.ty.isPointer && y.name == "p.x"
  | _, _ => false

theorem exists_moment_seesShadowed :
    ∃ s toks x y, Moment Settings.plain (.memory []) "main.imp" shadowing ((Library.memory []).bound + 1) s toks ∧
      s.context.resolve? s.scope "p" = some x ∧ (s.view Settings.plain).find? "p.x" = some y ∧
      x.name = "p" ∧ x.ty.isPointer = true ∧ y.name = "p.x" := by
  -- The first 24 tokens end behind the declaration of the pointer.
  have run : ((stateBefore? Settings.plain (.memory []) "main.imp" shadowing 24).map seesShadowed)
      = some true := by decide +kernel
  obtain ⟨s, before, sees⟩ := Option.map_eq_some_iff.mp run
  obtain ⟨toks, moment⟩ := Moment.of_stateBefore? (by decide) before
  unfold seesShadowed at sees
  split at sees
  · next x y visible found =>
    simp only [Bool.and_eq_true, beq_iff_eq] at sees
    exact ⟨s, toks, x, y, moment, visible, found, sees.1.1, sees.1.2, sees.2⟩
  · cases sees

theorem field_access_shadowing :
    ∃ s h x y, State.Reached Settings.plain (.memory []) "main.imp" shadowing s h ∧ PlainName "p" ∧
      s.context.resolve? s.scope "p" = some x ∧ (s.view Settings.plain).find? ("p" ++ "." ++ "x") = some y ∧
      y.name = s.context.spell s.scope ("p" ++ "." ++ "x") ∧
      ∃ d outer, h.Nearest "p" d outer ∧ d.var = x ∧ h.Source "p" d outer y := by
  obtain ⟨s, toks, x, y, moment, visible, found, -⟩ := exists_moment_seesShadowed
  have plain : PlainName "p" := ⟨by decide, by decide⟩
  obtain ⟨reach, access⟩ := field_access Settings.plain (.memory []) "main.imp" shadowing
  obtain ⟨h, reached⟩ := reach _ s toks moment
  exact ⟨s, h, x, y, reached, plain, visible, found, access s h reached "p" "x" x y plain visible found⟩

/-- A path can lead to a field variable of a declaration that is shadowed: in the inner block of the program,
what `p.x` stands for is not a field variable of the pointer `p`, whatever structs are known. -/
theorem field_of_shadowed :
    ∃ fuel s toks x y, Moment Settings.plain (.memory []) "main.imp" shadowing fuel s toks ∧
      s.context.resolve? s.scope "p" = some x ∧ (s.view Settings.plain).find? "p.x" = some y ∧
      ∀ c : Context, y ∉ c.fieldsOf x := by
  obtain ⟨s, toks, x, y, moment, visible, found, hx, pointer, hy⟩ := exists_moment_seesShadowed
  refine ⟨_, s, toks, x, y, moment, visible, found, fun c field => ?_⟩
  -- The field variables of a pointer are called by names with an arrow.
  obtain ⟨rest, named⟩ := (Context.field_of_mem_fieldsOf field).name_eq
  rw [hx, hy, pointer, if_pos rfl] at named
  simpa using congrArg String.toList named

end Impulse
