import Impulse.Proofs.Additions
import Impulse.Proofs.Listing

/-!
# Accepted programs pass a second check

The types of an accepted program are checked once more, without anything that was known while it was read: from
the program alone and the functions that are known at the end. If types are strict, this check succeeds. It is
made on every node of every tree; returns and cases are checked with the stack of `Impulse.Proofs.Brackets`.
-/

namespace Impulse

/-- Whether the types of a node fit, given the functions that are known: a value fits to what it is assigned to,
the elements of a list to its type, and the arguments of a call to its function. -/
def Node.wellTyped (functions : Table Signature) : Node → Bool
  | .node _ _ (.declare _ ty value _ _ _) => value.isAbsent || ty.accepts value
  | .node _ _ (.assign target value) => target.ty.resolved.accepts value
  | .node _ (.array elem _) (.list elems) => elems.all elem.accepts
  | .node _ _ (.list _) => false
  | .node _ _ (.call f args) => (Call.check functions f args).isOk
  | _ => true

/-- Whether the types of a program fit, read behind nodes that left the given openers on the stack. -/
def Program.wellTypedFrom (functions : Table Signature) (stack : List Node) : Program → Bool
  | [] => true
  | e :: p =>
    e.node.walk.all (Node.wellTyped functions) && e.node.fitsIn stack &&
      match Program.read stack e.node with
      | some stack => wellTypedFrom functions stack p
      | none => false

def Program.wellTyped (functions : Table Signature) (p : Program) : Bool :=
  p.wellTypedFrom functions []

def Node.Typed (functions : Table Signature) (n : Node) : Prop :=
  ∀ m ∈ n.walk, m.wellTyped functions = true

namespace Node

theorem Typed.mono (within : functions.Within later) {n : Node} (h : n.Typed functions) : n.Typed later := by
  intro m hm
  have typed := h m hm
  unfold wellTyped at typed ⊢
  split at typed
  · exact typed
  · exact typed
  · exact typed
  · cases typed
  · next f args =>
    have same : Call.check later f args = Call.check functions f args := by
      unfold Call.check at typed ⊢
      split at typed
      · cases typed
      · next sig known =>
        rw [within f sig known]
    rw [same]
    exact typed
  · rfl

end Node

theorem View.Builds.wellTyped {v : View} (h : v.Builds n)
    (strict : v.settings.feature .strictTypes = true) : n.wellTyped v.context.functions = true := by
  have notLax : ¬v.Lax := by
    unfold View.Lax
    rw [strict]
    exact Bool.noConfusion
  cases h with
  | list _ _ _ fits => exact List.all_eq_true.mpr fun n hn => (fits n hn).resolve_right notLax
  | call _ _ _ fits =>
    rcases fits with fits | ⟨lax, -⟩
    · show (Call.check _ _ _).isOk = true
      rw [fits]
      rfl
    · exact absurd lax notLax
  | _ => rfl

theorem Infer.BuildsPart.wellTyped {v : View} (h : BuildsPart v n)
    (strict : v.settings.feature .strictTypes = true) : n.wellTyped v.context.functions = true := by
  cases h with
  | operand h => exact h.wellTyped strict
  | operator t => rfl

theorem Context.within_registered {c : Context} (file : String)
    (fresh : c.definedIn? sig.name = none) :
    c.functions.Within (c.registered sig file).functions := by
  have new : c.functions.get? sig.name = none := by
    simp only [Context.definedIn?, Option.orElse_eq_orElse, Option.orElse_eq_or, Option.or_eq_none_iff] at fresh
    exact Table.origin?_eq_none_iff.mp fresh.2.2
  unfold Context.registered
  dsimp only
  split <;> exact Table.within_add new sig file

namespace State

variable {s s' : State}

theorem noted_functions (s : State) (t : Token) (source : Source) :
    (s.noted t source).context.functions = s.context.functions := by
  simp [State.noted]

/-- The change is the header of a function with a new name. -/
def Enters (s s' : State) : Prop :=
  ∃ t brace sig placeholders, s.function = none ∧ s.context.definedIn? sig.name = none ∧
    s' = s.entered t brace sig placeholders

theorem Step.functions_cases (h : Step settings s s') : s'.context.functions = s.context.functions ∨ s.Enters s' := by
  cases h with
  | function t brace placeholders outside _ fresh =>
    exact .inr ⟨t, brace, _, placeholders, outside, fresh, rfl⟩
  | declare _ h => exact .inl h.functions_eq
  | define t h => exact .inl ((congrArg _ (emitted_context _ _)).trans h.functions_eq)
  | loop _ _ _ _ _ _ _ counts _ => exact .inl ((congrArg _ (emitted_context _ _)).trans counts.functions_eq)
  | _ =>
    refine .inl ?_
    simp [Parse.withNotices, State.opened, State.finishedFields, State.finishedEnum, State.recorded]

theorem Step.functions_within (h : Step settings s s') : s.context.functions.Within s'.context.functions := by
  rcases h.functions_cases with same | ⟨t, brace, sig, placeholders, -, fresh, rfl⟩
  · rw [same]
    exact Table.Within.refl _
  · simpa [State.entered, State.opened] using Context.within_registered s.file fresh

theorem Steps.functions_within (h : Steps settings s s') : s.context.functions.Within s'.context.functions := by
  refine Steps.invariant (P := fun s' => s.context.functions.Within s'.context.functions)
    (fun hs h => hs.trans h.functions_within) ?_ ?_ h (Table.Within.refl _)
  · intro s' t source last hs _
    show s.context.functions.Within (s'.noted t source).context.functions
    rw [noted_functions]
    exact hs
  · intro s' t source last c merged hs _ _ _ _ taken
    have absorbed := Table.within_absorb (Context.absorb_tables taken).1
    rw [noted_functions] at absorbed
    exact hs.trans absorbed

def Typed (s : State) : Prop :=
  ∀ n ∈ s.nodes, n.Typed s.context.functions

theorem fits_of_strict (strict : settings.feature .strictTypes = true)
    (h : fits ∨ (s.view settings).Lax) : fits := by
  refine h.resolve_right fun lax => ?_
  have lax : settings.feature .strictTypes = false := lax
  rw [strict] at lax
  cases lax

theorem News.typed (hs : s.Complete) (strict : settings.feature .strictTypes = true) {n : Node}
    (h : s.News settings s' n) : n.Typed s.context.functions := by
  intro m hm
  rcases h.walk hs m hm with rfl | ⟨t, name, rfl⟩ | ⟨v, rfl, functions, part⟩
  · cases h with
    | write h =>
      cases h with
      | assign _ _ _ _ _ _ fits => exact fits_of_strict strict fits
      | call _ read => exact (hs.builds .absent read).wellTyped strict
      | _ => rfl
    | define t typed initial =>
      cases initial with
      | none => rfl
      | value _ _ fits =>
        show (_ || Ty.accepts _ _) = true
        rw [fits_of_strict strict fits, Bool.or_true]
    | begin h => cases h <;> rfl
    | _ => rfl
  · rfl
  · exact functions ▸ part.wellTyped strict

namespace Typed

theorem step (hs : s.Typed) (complete : s.Complete) (strict : settings.feature .strictTypes = true)
    (h : Step settings s s') : s'.Typed := by
  have within := h.functions_within
  have adds : s.Adds (·.Typed s'.context.functions) s' :=
    .step h (fun n hn => (hs n (List.mem_append_right _ hn)).mono within)
      fun n new => (new.typed complete strict).mono within
  intro n hn
  rcases adds.nodes hn with old | new
  · exact (hs n old).mono within
  · exact new

theorem steps (hs : s.Typed) (complete : s.Complete) (strict : settings.feature .strictTypes = true)
    (h : Steps settings s s') : s'.Typed := by
  have keeps : ∀ {s s'}, s.Complete ∧ s.Typed → Step settings s s' → s'.Complete ∧ s'.Typed :=
    fun ⟨complete, hs⟩ h => ⟨complete.step h, hs.step complete strict h⟩
  refine (Steps.invariant keeps ?_ ?_ h ⟨complete, hs⟩).2
  · intro s t source last ⟨complete, _⟩ _
    exact ⟨complete.child t source last, nofun⟩
  · intro s t source last c merged ⟨complete, hs⟩ _ inner ⟨completeChild, hc⟩ _ taken
    refine ⟨complete.absorbed completeChild taken, ?_⟩
    have tables := (Context.absorb_tables taken).1
    have noted : (s.noted t source).Typed := by
      intro n hn
      rw [noted_functions]
      rcases mem_nodes_emitted hn with old | rfl
      · exact hs n old
      · exact fun m hm => by
          obtain rfl := List.mem_singleton.mp (Node.walk_node .. ▸ hm)
          rfl
    intro n hn
    have origin : n ∈ (s.noted t source).nodes ∨ n ∈ c.program.map (·.node) := by
      simp only [nodes, State.absorbed, List.map_append, List.mem_append] at hn ⊢
      grind
    rcases origin with known | new
    · exact (noted n known).mono (Table.within_absorb tables)
    · -- The file was read with everything that was known before, and only added to it.
      have grown : (s.noted t source).context.functions.Within c.context.functions :=
        inner.functions_within
      exact (hc n (List.mem_append_left _ new)).mono (grown.absorb tables)

end Typed

end State

theorem Program.wellTypedFrom_of_reads (on : strict) (p : Program) (reads : Program.Reads (Node.Placed strict) stack (p.map (·.node)) final)
    (typed : ∀ e ∈ p, e.node.Typed functions) : p.wellTypedFrom functions stack = true := by
  induction p generalizing stack with
  | nil => rfl
  | cons e p ih =>
    cases reads with
    | cons placed next rest =>
      have root : e.node.walk.all (Node.wellTyped functions) = true :=
        List.all_eq_true.mpr (typed e (.head _))
      rw [wellTypedFrom, root, placed.typed on, next]
      exact ih rest fun e he => typed e (.tail _ he)

/-- An accepted program passes the check with the functions that are known at its end, if types are strict. -/
theorem compile_wellTyped (strict : settings.feature .strictTypes = true)
    (accepted : (compile settings library path text).stop = none) :
    Program.wellTyped (compile settings library path text).context.functions
      (compile settings library path text).program = true := by
  obtain ⟨last, s, steps, -, program, context⟩ := compile_ok accepted
  have start : (State.start library path text last).Typed := nofun
  have typed := start.steps (.start library path text last) strict steps
  refine Program.wellTypedFrom_of_reads strict _ (compile_listed accepted) ?_
  rw [program, context]
  exact fun e he => typed _ (List.mem_append_left _ (List.mem_map_of_mem he))

/-- A file whose function is called from another one. -/
def doubling : String :=
  "twice :: (n: int): int \x7b return [n * 2]; \x7d"

/-- A list, a switch, an assignment, and a return that calls an imported function. -/
def picking : String :=
  "@import \"lib.imp\"; pick :: (n: int): int \x7b xs: int[] = [1, 2]; switch (n) \x7b case (1, 2) \x7b " ++
  "return twice(n); \x7d default \x7b n = [0]; \x7d \x7d return [n + 1]; \x7d"

theorem compile_wellTyped_picking :
    Settings.plain.feature .strictTypes = true ∧
    (compile Settings.plain (.memory [("lib.imp", doubling)]) "main.imp" picking).stop = none ∧ Program.wellTyped
      (compile Settings.plain (.memory [("lib.imp", doubling)]) "main.imp" picking).context.functions
      (compile Settings.plain (.memory [("lib.imp", doubling)]) "main.imp" picking).program = true := by
  have strict : Settings.plain.feature .strictTypes = true := by decide
  have accepted : (compile Settings.plain (.memory [("lib.imp", doubling)]) "main.imp" picking).stop = none :=
    Option.isNone_iff_eq_none.mp (by decide +kernel)
  exact ⟨strict, accepted, compile_wellTyped strict accepted⟩

end Impulse
