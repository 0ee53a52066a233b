import Impulse.Proofs.Variables

/-!
# All known types are complete

In every state of every reading, only complete types are known: those of variables, fields, parameters, results
and switched values. So every expression is read in a complete view.
-/

namespace Impulse

open List

theorem Context.Complete.introduced {c : Context} (hc : c.Complete) (hx : x.ty.isComplete = true) :
    ∀ y ∈ c.introduced x, y.ty.isComplete = true := by
  intro y hy
  rcases mem_cons.mp hy with rfl | hy
  · exact hx
  · exact complete_of_mem_fieldsOf hc hx hy

theorem View.Initial.isComplete {value : Node}
    (h : v.Initial written ty value) (typed : TypeExpr.ofTokens v false toks = .ok written) : ty.isComplete = true := by
  have complete : written.isComplete = true := (TypeExpr.ofTokens_settled v false toks).of_ok typed
  cases h with
  | none => exact complete
  | value read length fits =>
    cases length with
    | same => exact complete
    | counted isOpen list =>
      rw [isOpen] at complete
      exact complete

namespace State

structure Complete (s : State) : Prop where
  context : s.context.Complete
  scope : ∀ frame ∈ s.scope.top :: s.scope.below, frame.Complete
  function : ∀ f, s.function = some f → f.ret.isComplete = true
  record : ∀ d, s.record = some (.struct d) → ∀ f ∈ d.fields, f.ty.isComplete = true
  blocks : ∀ b ∈ s.blocks, b.kind = .switch → b.value.isComplete = true

namespace Complete

variable {s s' : State}

theorem of_parts (functions : s.context.functions.All Signature.Complete)
    (known : ∀ x, s.Knows x → x.ty.isComplete = true) (fields : ∀ a f, s.HasField a f → f.ty.isComplete = true)
    (function : ∀ f, s.function = some f → f.ret.isComplete = true)
    (blocks : ∀ b ∈ s.blocks, b.kind = .switch → b.value.isComplete = true) : s.Complete where
  context :=
    ⟨functions, fun a _ found f mem => fields a f (.known found mem), fun _ x found => known x (.global found)⟩
  scope _ mem x visible := known x (.inFrame mem visible)
  function := function
  record d isOpen f mem := fields d.name f (.opened isOpen rfl mem)
  blocks := blocks

section

variable (hs : s.Complete)
include hs

theorem view (settings : Settings) : (s.view settings).Complete :=
  ⟨hs.context, hs.scope _ (.head _)⟩

theorem knows (x : Variable) (known : s.Knows x) : x.ty.isComplete = true := by
  cases known with
  | global found => exact hs.context.globals _ x found
  | inFrame mem visible => exact hs.scope _ mem x visible

theorem hasField (a : String) (f : Param) (has : s.HasField a f) : f.ty.isComplete = true := by
  cases has with
  | known found mem => exact hs.context.structs a _ found f mem
  | opened isOpen _ mem => exact hs.record _ isOpen f mem

theorem introduces {x : Variable} (h : s.Introduces settings x) : x.ty.isComplete = true := by
  cases h with
  | declared complete _ mem => exact hs.context.introduced complete x mem
  | defined typed initial _ mem => exact hs.context.introduced (initial.isComplete typed) x mem
  | constant mem =>
    rcases mem_append.mp mem with field | count
    · obtain ⟨f, -, rfl⟩ := mem_map.mp field
      rfl
    · obtain rfl := mem_singleton.mp count
      rfl

theorem congr (context : s'.context = s.context) (scope : s'.scope = s.scope) (function : s'.function = s.function)
    (record : s'.record = s.record) (blocks : s'.blocks = s.blocks) : s'.Complete := by
  refine ⟨?_, ?_, ?_, ?_, ?_⟩
  · rw [context]
    exact hs.context
  · rw [scope]
    exact hs.scope
  · rw [function]
    exact hs.function
  · rw [record]
    exact hs.record
  · rw [blocks]
    exact hs.blocks

theorem unmarked : State.Complete { s with afterBranch := false } :=
  hs.congr rfl rfl rfl rfl rfl

theorem builds (hwant : want.Wanted)
    (h : Infer.Gives (s.view settings) (Infer.expression toks want) n) : (s.view settings).Builds n :=
  (Infer.expression_builds (hs.view settings) toks hwant).of_gives h

theorem looped {brace : Token}
    (counts : (s.opened { kind := .loop, token := brace, framed := true }).Counts init counter s') : s'.Complete := by
  have same (x : Variable) (known : (s.opened { kind := .loop, token := brace, framed := true }).Knows x) :
      x.ty.isComplete = true := hs.knows x known.of_opened
  have fields (structs : s'.context.structs = s.context.structs) (record : s'.record = s.record) (a : String) (f : Param)
      (has : s'.HasField a f) : f.ty.isComplete = true := hs.hasField a f (has.mono structs fun _ => record ▸ id)
  have blocks : ∀ b ∈ (s.opened { kind := .loop, token := brace, framed := true }).blocks, b.kind = .switch →
      b.value.isComplete = true := forall_mem_cons.mpr ⟨by simp, hs.blocks⟩
  cases counts with
  | known => exact of_parts hs.context.functions same (fields rfl rfl) hs.function blocks
  | introduced t declared =>
    have known (x : Variable) (known : s'.Knows x) : x.ty.isComplete = true :=
      (declared.knows known).elim (same x) (hs.context.introduced rfl x)
    cases declared <;> exact of_parts hs.context.functions known (fields rfl rfl) hs.function blocks

/-- A change keeps the types of functions, of what the function returns, and of switched values complete. -/
theorem step_signatures (h : Step settings s s') : s'.context.functions.All Signature.Complete ∧
    (∀ f, s'.function = some f → f.ret.isComplete = true) ∧
    ∀ b ∈ s'.blocks, b.kind = .switch → b.value.isComplete = true := by
  have less (functions : s'.context.functions = s.context.functions)
      (function : ∀ f, s'.function = some f → s.function = some f)
      (blocks : ∀ b ∈ s'.blocks, b.kind = .switch → b ∈ s.blocks) :
      s'.context.functions.All Signature.Complete ∧ (∀ f, s'.function = some f → f.ret.isComplete = true) ∧
        ∀ b ∈ s'.blocks, b.kind = .switch → b.value.isComplete = true :=
    ⟨functions ▸ hs.context.functions, fun f inside => hs.function f (function f inside),
      fun b mem kind => hs.blocks b (blocks b mem kind) kind⟩
  cases h with
  | idle | load | structField | enumField => exact less rfl (fun _ => id) fun _ mem _ => mem
  | mark | header | write | result => exact less (by simp) (by simp) (by simp +contextual)
  | fields => exact less (by simp [finishedFields]) (by simp [finishedFields]) (by simp +contextual [finishedFields])
  | declare _ h => cases h <;> exact less rfl (fun _ => id) fun _ mem _ => mem
  | define _ h => cases h <;> exact less (by simp) (by simp) (by simp +contextual)
  | begin h =>
    refine ⟨by simpa [opened] using hs.context.functions, by simpa [opened] using hs.function, ?_⟩
    simp only [opened, emitted_blocks]
    refine forall_mem_cons.mpr ⟨fun isSwitch => ?_, hs.blocks⟩
    cases h with
    | switch _ _ _ _ read => exact Ty.isComplete_resolved ((hs.builds .absent read).completeArg (hs.view settings)).1
    | _ => cases isSwitch
  | loop _ _ _ _ _ _ _ counts =>
    cases counts with
    | known => exact less (by simp [opened]) (by simp [opened]) (by simp +contextual [opened])
    | introduced _ h => cases h <;> exact less (by simp [opened]) (by simp [opened]) (by simp +contextual [opened])
  | defer => exact less rfl (fun _ => id) (by simp +contextual [opened])
  | @function t brace sig placeholders _ _ _ complete =>
    have functions : (s.context.registered sig s.file).functions.All Signature.Complete := by
      unfold Context.registered
      dsimp only
      split <;> exact hs.context.functions.add complete _ _
    refine ⟨by simpa [entered, opened] using functions, ?_, ?_⟩
    · rintro f ⟨⟩
      exact complete.ret
    · simpa [entered, opened] using hs.blocks
  | struct | enum =>
    exact less (by simp [recorded, opened]) (by simp [recorded, opened]) (by simp +contextual [recorded, opened, Record.kind])
  | closeStruct blocks => exact less rfl (fun _ => id) (by simp +contextual [blocks])
  | closeEnum blocks => exact less (by simp [finishedEnum]) (by simp [finishedEnum]) (by simp +contextual [blocks])
  | closeDeferred blocks => exact less rfl (fun _ => id) (by simp +contextual [blocks])
  | closeOther _ blocks => exact less (by simp) (by simp [closed_function]) (by simp +contextual [blocks])

theorem step (h : Step settings s s') : s'.Complete := by
  obtain ⟨functions, function, blocks⟩ := hs.step_signatures h
  refine of_parts functions (fun x known => ?_) (fun a f has => ?_) function blocks
  · exact (h.knows known).elim (hs.knows x) hs.introduces
  · rcases h.hasField has with old | ⟨_, toks, _, _, _, typed⟩
    · exact hs.hasField a f old
    · exact (TypeExpr.ofTokens_settled (s.view settings) false toks).of_ok typed

theorem child (t : Token) (source : Source) (last : Token) : ((s.noted t source).child source last).Complete := by
  refine of_parts ?_ (fun x known => hs.knows x known.of_child) (fun a f has => hs.hasField a f has.of_child) nofun nofun
  simpa [State.child, noted] using hs.context.functions

theorem absorbed (hc : c.Complete)
    (taken : (s.noted t source).context.absorb c.context = (merged, none)) :
    ((s.noted t source).absorbed c merged).Complete := by
  refine of_parts ?_ (fun x known => ?_) (fun a f has => ?_) ?_ ?_
  · refine Table.All.absorb ?_ hc.context.functions (Context.absorb_tables taken).1
    simpa [noted] using hs.context.functions
  · exact (known.of_absorbed taken).elim (hs.knows x) (hc.knows x)
  · exact (has.of_absorbed taken).elim (hs.hasField a f) (hc.hasField a f)
  · simpa [State.absorbed, noted] using hs.function
  · simpa [State.absorbed, noted] using hs.blocks

theorem steps (h : Steps settings s s') : s'.Complete :=
  Steps.invariant (fun hs h => hs.step h) (fun hs _ => hs.child _ _ _)
    (fun hs _ _ hc _ taken => hs.absorbed hc taken) h hs

end

end Complete

end State

end Impulse
