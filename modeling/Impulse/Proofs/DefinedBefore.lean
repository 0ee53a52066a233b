import Impulse.Proofs.Balance
import Impulse.Proofs.Recheck
import Impulse.Proofs.Sharing

/-!
# Functions are defined before they are called

The functions that are known are those that need no definition and, behind them, those of the entries, in their
order. A function is known from its header on, and a call is read only if its function is known. So an accepted
program can be read from its first entry to its last one: whatever is called was defined by an entry further up,
also where a call was deferred, where the function is a method, and where it comes from another file.
-/

namespace Impulse

open List

variable {n : Node} {p : Program}

namespace Node

def signature? : Node → Option Signature
  | .node _ _ (.function sig) => some sig
  | _ => none

def calledName? : Node → Option String
  | .node _ _ (.call f _) => some f
  | _ => none

def calledNames (n : Node) : List String :=
  n.walk.filterMap calledName?

theorem mem_calledNames : f ∈ n.calledNames ↔ ∃ m ∈ n.walk, m.calledName? = some f :=
  mem_filterMap

/-- The tree defines nothing, and calls only functions of the list. -/
structure CallsWithin (known : List String) (n : Node) : Prop where
  plain : n.signature? = none
  calls : ∀ f ∈ n.calledNames, f ∈ known

namespace CallsWithin

theorem of_walk (plain : n.signature? = none) (h : ∀ m ∈ n.walk, ∀ f, m.calledName? = some f → f ∈ known) :
    n.CallsWithin known := by
  refine ⟨plain, fun f hf => ?_⟩
  obtain ⟨m, hm, called⟩ := mem_calledNames.mp hf
  exact h m hm f called

theorem mono (h : n.CallsWithin known) (sub : known ⊆ more) : n.CallsWithin more :=
  ⟨h.plain, fun f hf => sub (h.calls f hf)⟩

end CallsWithin

end Node

namespace View.Builds

variable {v : View}

theorem calledName? (h : v.Builds n) (called : n.calledName? = some f) : f ∈ v.context.functions.names := by
  cases h with
  | call t known =>
    cases called
    rw [Table.mem_names, ← Option.isSome_map, ← Table.get?, known]
    rfl
  | _ => cases called

end View.Builds

namespace Program

def signatures (p : Program) : List Signature :=
  p.filterMap (·.node.signature?)

def definedNames (p : Program) : List String :=
  p.signatures.map (·.name)

def signatureAt? (p : Program) (i : Nat) : Option Signature :=
  p[i]?.bind (·.node.signature?)

@[simp] theorem signatures_append (p q : Program) : signatures (p ++ q) = signatures p ++ signatures q :=
  filterMap_append

@[simp] theorem definedNames_append (p q : Program) : definedNames (p ++ q) = definedNames p ++ definedNames q := by
  simp [definedNames]

/-- Every entry calls functions of the list or functions that entries before it define. -/
def CallsBack (known : List String) : Program → Prop
  | [] => True
  | e :: p => (∀ f ∈ e.node.calledNames, f ∈ known) ∧ CallsBack (known ++ definedNames [e]) p

theorem callsBack_append :
    CallsBack known (p ++ q) ↔ CallsBack known p ∧ CallsBack (known ++ definedNames p) q := by
  induction p generalizing known with
  | nil => simp [CallsBack, definedNames, signatures]
  | cons e p ih =>
    rw [cons_append, CallsBack, CallsBack, ih, and_assoc, append_assoc,
      ← definedNames_append, singleton_append]

theorem CallsBack.of_getElem? (h : CallsBack known p) (he : p[i]? = some e) (hf : f ∈ e.node.calledNames) :
    f ∈ known ++ definedNames (p.take i) := by
  obtain ⟨hi, he⟩ := List.getElem?_eq_some_iff.mp he
  have split : p = p.take i ++ e :: p.drop (i + 1) := by
    rw [← he, getElem_cons_drop, take_append_drop]
  rw [split, callsBack_append] at h
  exact h.2.1 f hf

theorem exists_signatureAt? (hf : f ∈ definedNames (p.take i)) :
    ∃ j < i, ∃ sig, p.signatureAt? j = some sig ∧ sig.name = f := by
  obtain ⟨sig, hsig, rfl⟩ := mem_map.mp hf
  obtain ⟨e, he, defines⟩ := mem_filterMap.mp hsig
  obtain ⟨j, hj⟩ := mem_iff_getElem?.mp he
  rw [List.getElem?_take] at hj
  split at hj
  · next before => exact ⟨j, before, sig, by rw [signatureAt?, hj]; exact defines, rfl⟩
  · cases hj

theorem mem_signatures_of_signatureAt? (h : p.signatureAt? i = some sig) : sig ∈ p.signatures := by
  obtain ⟨e, he, defines⟩ := Option.bind_eq_some_iff.mp h
  exact mem_filterMap.mpr ⟨e, mem_of_getElem? he, defines⟩

theorem signatures_of_plain (h : ∀ e ∈ p, e.node.signature? = none) : p.signatures = [] :=
  filterMap_eq_nil_iff.mpr h

theorem callsBack_of_plain (h : ∀ e ∈ p, e.node.CallsWithin known) : CallsBack known p := by
  induction p with
  | nil => trivial
  | cons e p ih =>
    refine ⟨(h e (.head _)).calls, ?_⟩
    have none : definedNames [e] = [] := by
      simp [definedNames, signatures, (h e (.head _)).plain]
    rw [none, append_nil]
    exact ih fun e' he' => h e' (.tail _ he')

end Program

namespace State

variable {s s' : State}

theorem News.callsWithin (hs : s.Complete) (h : s.News settings s' n) :
    n.CallsWithin s.context.functions.names ∨ s.Enters s' := by
  refine or_iff_not_imp_right.mpr fun noFunction => .of_walk ?_ fun m hm f called => ?_
  · cases h with
    | function t brace placeholders outside _ fresh _ after =>
      exact absurd ⟨t, brace, _, placeholders, outside, fresh, after⟩ noFunction
    | write h | begin h => cases h <;> rfl
    | _ => rfl
  · rcases h.walk hs m hm with rfl | ⟨t, name, rfl⟩ | ⟨v, -, functions, part⟩
    · cases h with
      | write h =>
        cases h with
        | call _ read => exact (hs.builds .absent read).calledName? called
        | _ => cases called
      | begin h => cases h <;> cases called
      | _ => cases called
    · cases called
    · rw [← functions]
      cases part with
      | operand h => exact h.calledName? called
      | operator => cases called

/-- No function is known twice, and what is deferred calls only functions that are known. -/
structure KnowsCalls (s : State) : Prop where
  nodup : s.context.functions.names.Nodup
  deferred : ∀ n ∈ s.deferral.nodes, n.CallsWithin s.context.functions.names

/-- What lies between two states of reading a file: the new functions are those that the new entries define, in
their order, and the new entries call back. -/
structure Defines (s s' : State) : Prop where
  added : ∃ (p : Program) (es : List (Table.Entry Signature)),
    s'.program = s.program ++ p ∧
      s'.context.functions.entries = s.context.functions.entries ++ es ∧
      es.map (fun e => (e.name, e.item)) = p.signatures.map (fun sig => (sig.name, sig)) ∧
      p.CallsBack s.context.functions.names

namespace Defines

theorem refl (s : State) : s.Defines s :=
  ⟨[], [], by simp, by simp, rfl, trivial⟩

theorem names_eq
    (entries : s'.context.functions.entries = s.context.functions.entries ++ es)
    (same : es.map (fun e => (e.name, e.item)) = p.signatures.map (fun sig => (sig.name, sig))) :
    s'.context.functions.names = s.context.functions.names ++ p.definedNames := by
  have names := congrArg (List.map Prod.fst) same
  rw [map_map, map_map] at names
  rw [Table.names, entries, map_append]
  exact congrArg _ names

theorem trans (h : s.Defines s₁) (h' : s₁.Defines s₂) : s.Defines s₂ := by
  obtain ⟨p, es, listed, entries, same, calls⟩ := h
  obtain ⟨p', es', listed', entries', same', calls'⟩ := h'
  refine ⟨p ++ p', es ++ es', ?_, ?_, ?_, ?_⟩
  · rw [listed', listed, append_assoc]
  · rw [entries', entries, append_assoc]
  · rw [map_append, same, same', Program.signatures_append, map_append]
  · rw [names_eq entries same] at calls'
    exact Program.callsBack_append.mpr ⟨calls, calls'⟩

theorem of_other (complete : s.Complete) (hs : s.KnowsCalls) (h : Step settings s s') (other : ¬s.Enters s') :
    s.Defines s' ∧ s'.KnowsCalls := by
  have functions := h.functions_cases.resolve_right other
  obtain ⟨-, ⟨ns, listed, calls⟩, deferred⟩ := Adds.step h hs.deferred fun n new =>
    (new.callsWithin complete).resolve_right other
  have plain : ∀ e ∈ ns.map (Entry.of · s.file), e.node.CallsWithin s.context.functions.names := by
    simpa [Entry.of] using calls
  refine ⟨⟨_, [], listed, by simp [functions], ?_, Program.callsBack_of_plain plain⟩, ?_, ?_⟩
  · rw [Program.signatures_of_plain fun e he => (plain e he).plain]
    rfl
  · rw [functions]
    exact hs.nodup
  · rw [functions]
    exact deferred

theorem functions_entered (t brace : Token) (sig : Signature) (placeholders : List String) :
    (s.entered t brace sig placeholders).context.functions = s.context.functions.add sig.name sig s.file := by
  have registered : (s.context.registered sig s.file).functions
      = s.context.functions.add sig.name sig s.file := by
    unfold Context.registered
    dsimp only
    split <;> rfl
  simpa [State.entered, State.opened] using registered

theorem entered (nested : s.Nested) (hs : s.KnowsCalls) (t brace : Token)
    (placeholders : List String) (outside : s.function = none) (fresh : s.context.definedIn? sig.name = none) :
    s.Defines (s.entered t brace sig placeholders) ∧ (s.entered t brace sig placeholders).KnowsCalls := by
  have nesting := nested.nesting
  rw [outside] at nesting
  have direct : s.deferral.recording = none := by
    simpa [Deferral.isRecording] using nesting.not_recording
  have functions := functions_entered (s := s) t brace sig placeholders
  have unknown : s.context.functions.has sig.name = false := by
    simp only [Context.definedIn?, Option.orElse_eq_orElse, Option.orElse_eq_or, Option.or_eq_none_iff] at fresh
    rw [Table.has_eq_isSome, ← Option.isSome_map, ← Table.get?, Table.origin?_eq_none_iff.mp fresh.2.2]
    rfl
  have entries : (s.context.functions.add sig.name sig s.file).entries
      = s.context.functions.entries ++ [⟨sig.name, sig, s.file⟩] := by
    rw [Table.add, if_neg (by simp [unknown])]
  have emits : State.emitted { s with context := s.context.registered sig s.file } (.functionOf t sig)
      = { s with
          context := s.context.registered sig s.file
          program := s.program ++ [Entry.of (.functionOf t sig) s.file] } :=
    emitted_direct (s := { s with context := s.context.registered sig s.file }) _ direct
  have program : (s.entered t brace sig placeholders).program
      = s.program ++ [Entry.of (.functionOf t sig) s.file] := by
    simp only [State.entered, emits, State.opened]
  have deferral : (s.entered t brace sig placeholders).deferral = s.deferral := by
    simp only [State.entered, emits, State.opened]
  refine ⟨⟨_, _, program, (congrArg _ functions).trans entries, rfl, forall_mem_nil _, trivial⟩, ?_, ?_⟩
  · rw [functions]
    exact Table.nodup_add hs.nodup _ _ _
  · rw [deferral, functions]
    have grown : s.context.functions.names ⊆ (s.context.functions.add sig.name sig s.file).names := by
      rw [Table.names, Table.names, entries, map_append]
      exact subset_append_left _ _
    exact fun n hn => (hs.deferred n hn).mono grown

theorem step (nested : s.Nested) (complete : s.Complete) (hs : s.KnowsCalls)
    (h : Step settings s s') : s.Defines s' ∧ s'.KnowsCalls := by
  by_cases enters : s.Enters s'
  · obtain ⟨t, brace, sig, placeholders, outside, fresh, rfl⟩ := enters
    exact entered nested hs t brace placeholders outside fresh
  · exact of_other complete hs h enters

theorem imports (nested : s.Nested) (hs : s.KnowsCalls) {t last : Token} (bottom : s.blocks = []) (inner : ((s.noted t source).child source last).Defines c)
    (distinct : c.context.functions.names.Nodup)
    (taken : (s.noted t source).context.absorb c.context = (merged, none)) :
    s.Defines ((s.noted t source).absorbed c merged) ∧ ((s.noted t source).absorbed c merged).KnowsCalls := by
  obtain ⟨-, -, -, direct, -⟩ := nested.of_blocks_nil bottom
  obtain ⟨p, es, listed, entries, same, calls⟩ := inner
  have functions : (s.noted t source).context.functions = s.context.functions := noted_functions s t source
  change c.context.functions.entries = (s.noted t source).context.functions.entries ++ es at entries
  change p.CallsBack (s.noted t source).context.functions.names at calls
  rw [functions] at entries calls
  obtain rfl : c.program = p := listed
  have whole : merged.functions = c.context.functions := by
    have grown : s.context.functions.names <+: c.context.functions.names := by
      rw [Table.names, Table.names, entries, map_append]
      exact prefix_append _ _
    have kept : s.context.functions.KeptIn c.context.functions := by
      intro name e found
      have mem : e ∈ c.context.functions.entries := by
        rw [entries]
        exact mem_append_left _ (mem_of_find?_eq_some found)
      obtain rfl : e.name = name := by simpa using List.find?_some found
      exact Table.find?_of_mem distinct mem
    have absorbs := (Context.absorb_tables taken).1
    rw [functions, Table.absorb_of_keptIn hs.nodup distinct grown kept] at absorbs
    exact (Prod.ext_iff.mp absorbs).1.symm
  refine ⟨⟨Entry.of (.plain t (.source source.path)) s.file :: c.program, es, ?_, ?_, same, ?_⟩, ?_, ?_⟩
  · rw [noted_direct direct]
    simp [State.absorbed]
  · exact (congrArg _ whole).trans entries
  · refine ⟨forall_mem_nil _, ?_⟩
    show c.program.CallsBack (s.context.functions.names ++ [])
    rw [append_nil]
    exact calls
  · show merged.functions.names.Nodup
    rw [whole]
    exact distinct
  · have deferral : (s.noted t source).deferral = s.deferral := by rw [noted_direct direct]
    show ∀ n ∈ (s.noted t source).deferral.nodes, n.CallsWithin merged.functions.names
    have names : c.context.functions.names = s.context.functions.names ++ c.program.definedNames :=
      names_eq entries same
    rw [deferral, whole, names]
    exact fun n hn => (hs.deferred n hn).mono (subset_append_left _ _)

end Defines

theorem KnowsCalls.child (hs : s.KnowsCalls) (t : Token) (source : Source) (last : Token) :
    ((s.noted t source).child source last).KnowsCalls := by
  refine ⟨?_, forall_mem_nil _⟩
  show (s.noted t source).context.functions.names.Nodup
  rw [noted_functions]
  exact hs.nodup

theorem Steps.defines (nested : s.Nested) (complete : s.Complete) (hs : s.KnowsCalls)
    (h : Steps settings s s') : s.Defines s' ∧ s'.KnowsCalls := by
  induction h with
  | refl => exact ⟨.refl _, hs⟩
  | step h h' ih =>
    obtain ⟨before, knows⟩ := ih nested complete hs
    obtain ⟨after, knows'⟩ := Defines.step (nested.steps h) (complete.steps h) knows h'
    exact ⟨before.trans after, knows'⟩
  | imports h bottom _ inner _ _ taken ih ihChild =>
    obtain ⟨before, knows⟩ := ih nested complete hs
    obtain ⟨child, distinct⟩ :=
      ihChild (.child _ _ _) ((complete.steps h).child _ _ _) (knows.child _ _ _)
    obtain ⟨after, knows'⟩ :=
      Defines.imports (nested.steps h) knows bottom child distinct.nodup taken
    exact ⟨before.trans after, knows'⟩

theorem functions_start (library : Library) (path text : String) (last : Token) :
    (State.start library path text last).context.functions.names = ["print", "println"] := by
  simp only [State.start, Context.markImported_imported]
  rfl

theorem KnowsCalls.start (library : Library) (path text : String) (last : Token) :
    (State.start library path text last).KnowsCalls := by
  refine ⟨?_, forall_mem_nil _⟩
  rw [functions_start]
  decide

end State

/-- In an accepted program no function is defined twice, every defined function is known at the end as it was
defined, and every call, wherever in the tree of an entry it stands, is to a function that needs no definition or
to one that an entry further up defines. -/
theorem compile_definedBefore (accepted : (compile settings library path text).stop = none) :
    let done := compile settings library path text
    done.program.definedNames.Nodup ∧
      (∀ sig ∈ done.program.signatures, done.context.functions.get? sig.name = some sig) ∧
      ∀ i e, done.program[i]? = some e → ∀ f ∈ e.node.calledNames,
        f = "print" ∨ f = "println" ∨
          ∃ j < i, ∃ sig, done.program.signatureAt? j = some sig ∧ sig.name = f ∧
            done.context.functions.get? f = some sig := by
  obtain ⟨last, s, steps, -, program, context⟩ := compile_ok accepted
  obtain ⟨⟨p, es, listed, entries, same, calls⟩, knows⟩ :=
    steps.defines (.start library path text last) (.start library path text last)
      (.start library path text last)
  have names := State.Defines.names_eq entries same
  rw [State.functions_start] at names calls
  obtain rfl : s.program = p := listed
  have found : ∀ sig ∈ s.program.signatures, s.context.functions.get? sig.name = some sig := by
    intro sig hsig
    have mem : (sig.name, sig) ∈ es.map fun e => (e.name, e.item) := by
      rw [same]
      exact mem_map_of_mem hsig
    obtain ⟨e, he, pair⟩ := mem_map.mp mem
    obtain ⟨name, item⟩ := Prod.mk.inj pair
    have known : e ∈ s.context.functions.entries := entries ▸ mem_append_right _ he
    rw [Table.get?, ← name, Table.find?_of_mem knows.nodup known]
    exact congrArg some item
  dsimp only
  rw [program, context]
  refine ⟨?_, found, fun i e he f hf => ?_⟩
  · have distinct := knows.nodup
    rw [names] at distinct
    exact (nodup_append.mp distinct).2.1
  · rcases mem_append.mp (calls.of_getElem? he hf) with builtin | defined
    · have two : f = "print" ∨ f = "println" := by simpa using builtin
      exact two.imp_right .inl
    · obtain ⟨j, before, sig, defines, rfl⟩ := Program.exists_signatureAt? defined
      exact .inr (.inr ⟨j, before, sig, defines, rfl, found sig (Program.mem_signatures_of_signatureAt? defines)⟩)

def doublingMethod : String :=
  "P :: struct \x7b x: int; twice :: (n: int): int \x7b return [n * 2]; \x7d \x7d"

/-- Calls inside of calls, the last of them deferred. -/
def callingMethod : String :=
  "@import \"lib.imp\"; f :: () \x7b p: P; defer \x7b println(p.twice(1)); \x7d " ++
  "print(P.twice(&p, P.twice(&p, 2))); \x7d"

theorem compile_definedBefore_callingMethod :
    let done := compile Settings.plain (.memory [("lib.imp", doublingMethod)]) "main.imp" callingMethod
    done.stop = none ∧
      done.program.flatMap (·.node.calledNames) = ["print", "P.twice", "P.twice", "println", "P.twice"] ∧
      done.program.definedNames.Nodup ∧
      (∀ sig ∈ done.program.signatures, done.context.functions.get? sig.name = some sig) ∧
      ∀ i e, done.program[i]? = some e → ∀ f ∈ e.node.calledNames,
        f = "print" ∨ f = "println" ∨
          ∃ j < i, ∃ sig, done.program.signatureAt? j = some sig ∧ sig.name = f ∧
            done.context.functions.get? f = some sig := by
  have accepted :
      (compile Settings.plain (.memory [("lib.imp", doublingMethod)]) "main.imp" callingMethod).stop = none :=
    Option.isNone_iff_eq_none.mp (by decide +kernel)
  exact ⟨accepted, by decide +kernel, compile_definedBefore accepted⟩

end Impulse
