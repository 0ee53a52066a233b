import Impulse.Proofs.Declarations
import Impulse.Proofs.Steps

/-!
# The variables and fields of a state

Every variable of a state was declared, is a field of a declared variable, or is a constant of an enum, and every field of
a struct was written in its body. So what holds of whatever a change can introduce holds of all that is known.
-/

namespace Impulse

open List

theorem Context.absorb_tables {c child merged : Context} (h : c.absorb child = (merged, none)) :
    c.functions.absorb child.functions = (merged.functions, none) ∧
      c.structs.absorb child.structs = (merged.structs, none) ∧ c.enums.absorb child.enums = (merged.enums, none) ∧
      c.globals.absorb child.globals = (merged.globals, none) := by
  unfold Context.absorb at h
  dsimp only at h
  split at h
  · cases h
  · next structs =>
    split at h
    · cases h
    · next enums =>
      split at h
      · cases h
      · next functions =>
        split at h
        · cases h
        · next globals =>
          cases h
          exact ⟨Prod.ext rfl functions, Prod.ext rfl structs, Prod.ext rfl enums, Prod.ext rfl globals⟩

theorem Scope.frames_of_pop {scope popped : Scope} (h : scope.pop? = some popped) :
    popped.top :: popped.below ⊆ scope.top :: scope.below := by
  unfold Scope.pop? at h
  split at h
  · cases h
  · next frame below hbelow =>
    cases h
    rw [hbelow]
    exact subset_cons_self _ _

namespace State

variable {s s' c : State} {t last : Token}

theorem registered_globals (c : Context) (sig : Signature) (file : String) :
    (c.registered sig file).globals = c.globals := by
  unfold Context.registered
  dsimp only
  split <;> rfl

theorem finishedEnum_globals (s : State) (d : EnumDraft) :
    (s.finishedEnum d).context.globals
      = (Parse.enumConstants d).foldl (fun t x => t.add x.name x s.file) s.context.globals := by
  simp [State.finishedEnum]

theorem noted_globals (s : State) (t : Token) (source : Source) :
    (s.noted t source).context.globals = s.context.globals := by
  simp [State.noted]

/-- The variable is global, or belongs to a frame of the scope. -/
inductive Knows (s : State) (x : Variable) : Prop
  | global {name : String} (found : s.context.globals.get? name = some x)
  | inFrame {frame : Frame} (mem : frame ∈ s.scope.top :: s.scope.below) (visible : x ∈ frame.visible)

variable (settings) in
/-- What a change of the state can introduce: a variable with all its fields, or the constants of an enum. -/
inductive Introduces (s : State) (y : Variable) : Prop
  | declared {x : Variable} (complete : x.ty.isComplete = true) (unknown : x.value = "")
      (mem : y ∈ s.context.introduced x)
  | defined {x : Variable} {toks : List Token} {written : Ty} {value : Node}
      (typed : TypeExpr.ofTokens (s.view settings) false toks = .ok written)
      (initial : (s.view settings).Initial written x.ty value) (valued : x.value = Parse.constantText x.const value)
      (mem : y ∈ s.context.introduced x)
  | constant {d : EnumDraft} (mem : y ∈ Parse.enumConstants d)

theorem Knows.mono (known : s'.Knows x) (globals : s'.context.globals = s.context.globals)
    (scope : s'.scope.top :: s'.scope.below ⊆ s.scope.top :: s.scope.below) : s.Knows x := by
  cases known with
  | global found => exact .global (globals ▸ found)
  | inFrame mem visible => exact .inFrame (scope mem) visible

theorem Knows.of_opened (known : (s.opened b).Knows x) : s.Knows x := by
  cases known with
  | global found => exact .global found
  | inFrame mem visible =>
    unfold opened at mem
    dsimp only at mem
    split at mem
    · rcases mem_cons.mp mem with rfl | mem
      · exact .inFrame (.head _) visible
      · exact .inFrame mem visible
    · exact .inFrame mem visible

theorem Knows.of_child (known : ((s.noted t source).child source last).Knows x) : s.Knows x := by
  cases known with
  | global found => exact .global (noted_globals s t source ▸ found)
  | inFrame mem visible =>
    obtain rfl := mem_singleton.mp mem
    cases visible

theorem Knows.of_absorbed (taken : (s.noted t source).context.absorb c.context = (merged, none))
    (known : ((s.noted t source).absorbed c merged).Knows x) : s.Knows x ∨ c.Knows x := by
  cases known with
  | global found =>
    refine (Table.get?_absorb (Context.absorb_tables taken).2.2.2 found).imp (fun old => ?_) .global
    exact .global (noted_globals s t source ▸ old)
  | inFrame mem visible => exact .inl (.inFrame (by simpa [absorbed, noted] using mem) visible)

theorem Declares.knows (h : s.Declares x s') (known : s'.Knows y) : s.Knows y ∨ y ∈ s.context.introduced x := by
  cases h with
  | asGlobal =>
    cases known with
    | global found => exact (Table.mem_of_get?_foldl_add found).symm.imp .global And.left
    | inFrame mem visible => exact .inl (.inFrame mem visible)
  | asLocal _ _ declared =>
    cases known with
    | global found => exact .inl (.global found)
    | inFrame mem visible =>
      rcases mem_cons.mp mem with rfl | below
      · exact (Scope.mem_visible_declareList? declared visible).symm.imp_left (.inFrame (.head _))
      · rw [Scope.below_declareList? declared] at below
        exact .inl (.inFrame (.tail _ below) visible)

theorem Step.knows (h : Step settings s s') (known : s'.Knows x) : s.Knows x ∨ s.Introduces settings x := by
  have same (globals : s'.context.globals = s.context.globals) (scope : s'.scope = s.scope) :
      s.Knows x ∨ s.Introduces settings x :=
    .inl (known.mono globals (scope ▸ List.Subset.refl _))
  have opens (b : Block) (globals : s'.context.globals = s.context.globals) (scope : s'.scope = (s.opened b).scope) :
      s.Knows x ∨ s.Introduces settings x :=
    .inl (Knows.of_opened (b := b) (known.mono globals (scope ▸ List.Subset.refl _)))
  have pops {scope : Scope} (popped : s.scope.pop? = some scope) (globals : s'.context.globals = s.context.globals)
      (left : s'.scope = scope) : s.Knows x ∨ s.Introduces settings x :=
    .inl (known.mono globals (left ▸ Scope.frames_of_pop popped))
  cases h with
  | idle | load | structField | enumField | closeStruct => exact same rfl rfl
  | mark | header | write | result => exact same (by simp) (by simp)
  | fields => exact same (by simp [finishedFields]) (by simp [finishedFields])
  | declare complete h _ unknown => exact (h.knows known).imp_right (.declared complete unknown)
  | define _ h _ _ typed initial _ _ valued =>
    exact (h.knows (known.mono (by simp) (by simp))).imp_right (.defined typed initial valued)
  | @begin _ b => exact opens b (by simp [opened]) (by simp [opened])
  | loop brace _ _ _ _ _ _ counts =>
    cases counts with
    | known => exact opens { kind := .loop, token := brace, framed := true } (by simp [opened]) (by simp)
    | introduced t declared =>
      exact (declared.knows (known.mono (by simp) (by simp))).imp Knows.of_opened (.declared rfl rfl)
  | defer brace => exact opens { kind := .deferred, token := brace, framed := true } rfl rfl
  | function _ brace =>
    exact opens { kind := .function, token := brace, framed := true } (by simp [entered, opened, registered_globals])
      (by simp [entered, opened])
  | struct | enum => exact same (by simp [recorded, opened]) (by simp [recorded, opened])
  | closeEnum =>
    cases known with
    | global found =>
      rw [finishedEnum_globals] at found
      exact (Table.mem_of_get?_foldl_add found).symm.imp .global fun new => .constant new.1
    | inFrame mem visible => exact .inl (.inFrame (by simpa [finishedEnum] using mem) visible)
  | closeDeferred _ _ popped => exact pops popped rfl rfl
  | closeOther _ _ _ popped =>
    split at popped
    · exact pops popped (by simp) (by simp)
    · exact same (by simp) (by simpa using popped)

/-- The field belongs to the struct, which is known or still open. -/
inductive HasField (s : State) (a : String) (f : Param) : Prop
  | known {d : StructDef} (found : s.context.structs.get? a = some d) (mem : f ∈ d.fields)
  | opened {d : StructDraft} (record : s.record = some (.struct d)) (named : d.name = a) (mem : f ∈ d.fields)

theorem HasField.mono (has : s'.HasField a f) (structs : s'.context.structs = s.context.structs)
    (record : ∀ d, s'.record = some (.struct d) → s.record = some (.struct d)) : s.HasField a f := by
  cases has with
  | known found mem => exact .known (structs ▸ found) mem
  | opened isOpen named mem => exact .opened (record _ isOpen) named mem

theorem HasField.of_child (has : ((s.noted t source).child source last).HasField a f) : s.HasField a f :=
  has.mono (by simp [child, noted]) nofun

theorem HasField.of_absorbed (taken : (s.noted t source).context.absorb c.context = (merged, none))
    (has : ((s.noted t source).absorbed c merged).HasField a f) : s.HasField a f ∨ c.HasField a f := by
  cases has with
  | known found mem =>
    refine (Table.get?_absorb (Context.absorb_tables taken).2.1 found).imp (fun old => ?_) fun new => .known new mem
    exact .known (by simpa [noted] using old) mem
  | opened isOpen named mem => exact .inl (.opened (by simpa [absorbed, noted] using isOpen) named mem)

variable (settings) in
/-- The struct is open, and a field of the type can be added to it. -/
def GetsField (s : State) (a : String) (ty : Ty) : Prop :=
  ∃ d toks, s.record = some (.struct d) ∧ d.fieldsOpen = true ∧ d.name = a ∧
    TypeExpr.ofTokens (s.view settings) false toks = .ok ty

theorem Step.hasField (h : Step settings s s') (has : s'.HasField a f) :
    s.HasField a f ∨ s.GetsField settings a f.ty := by
  have same (structs : s'.context.structs = s.context.structs)
      (record : ∀ d, s'.record = some (.struct d) → s.record = some (.struct d)) :
      s.HasField a f ∨ s.GetsField settings a f.ty :=
    .inl (has.mono structs record)
  cases h with
  | idle | load | defer | closeDeferred => exact same rfl fun _ => id
  | mark | header => exact same (by simp) (by simp)
  | write | result | closeOther | begin => exact same (by simp [State.opened]) (by simp [State.opened])
  | declare _ h => cases h <;> exact same rfl fun _ => id
  | define _ h => cases h <;> exact same (by simp) (by simp)
  | loop _ _ _ _ _ _ _ counts =>
    cases counts with
    | known => exact same (by simp [State.opened]) (by simp [State.opened])
    | introduced _ h => cases h <;> exact same (by simp [State.opened]) (by simp [State.opened])
  | fields record =>
    cases has with
    | known found mem =>
      simp only [finishedFields, emitted_context, Table.get?_add] at found
      split at found
      · next named =>
        cases found
        exact .inl (.opened record named.symm mem)
      · exact .inl (.known found mem)
    | opened isOpen named mem =>
      simp only [finishedFields, emitted_record] at isOpen
      cases isOpen
      exact .inl (.opened record named mem)
  | function t brace =>
    cases has with
    | known found mem =>
      simp only [entered, State.opened, emitted_context, Context.registered] at found
      split at found
      · exact .inl (.known found mem)
      · rw [Table.get?_add] at found
        split at found
        · next method =>
          cases found
          rw [← method] at mem
          cases registered : s.context.structs.get? a with
          | none =>
            rw [registered] at mem
            cases mem
          | some d =>
            rw [registered] at mem
            exact .inl (.known registered mem)
        · exact .inl (.known found mem)
    | opened isOpen named mem => exact .inl (.opened (by simpa [entered, State.opened] using isOpen) named mem)
  | struct | enum =>
    cases has with
    | known found mem => exact .inl (.known (by simpa [recorded, State.opened] using found) mem)
    | opened isOpen named mem =>
      simp only [recorded, State.opened, emitted_record] at isOpen
      cases isOpen
      try cases mem
  | @structField d name toks ty record _ openFields typed =>
    cases has with
    | known found mem => exact .inl (.known found mem)
    | opened isOpen named mem =>
      cases isOpen
      rcases mem_append.mp mem with old | new
      · exact .inl (.opened record named old)
      · obtain rfl := mem_singleton.mp new
        exact .inr ⟨d, toks, record, openFields, named, typed⟩
  | enumField | closeStruct | closeEnum =>
    cases has with
    | known found mem => exact .inl (.known (by simpa [finishedEnum] using found) mem)
    | opened isOpen => cases isOpen

end State

end Impulse
