import Impulse.Proofs.Places
import Impulse.Proofs.Scheduling

/-!
# Branches that go on

In an accepted program, a branch that goes on behind another one stands directly behind the end of a branch with a
condition. So it does in the statements of deferred blocks, wherever they are listed.

While a file is read, a mark tells that a branch with a condition was just closed. Every statement and every header
takes it away, so that while it is there, the nodes that were listed last end with the end of such a branch.
-/

namespace Impulse

open List

namespace Program

/-- The last of the nodes is the end of a block, and the header of a branch with a condition is on top of the stack
before it, whatever lies below. -/
def EndsConditional (below : List Node → Prop) (nodes : List Node) : Prop :=
  ∃ before t opener, nodes = before ++ [.plain t .blockEnd] ∧ opener.isConditional = true ∧
    ∀ base, below base → ∃ stack, before.foldlM read base = some (opener :: stack)

/-- Behind `nodes`, the branches among `ns` that go on behind another one stand behind one with a condition. -/
def Alternates (below : List Node → Prop) (nodes ns : List Node) : Prop :=
  ∀ before n after, ns = before ++ n :: after → n.isAlternative = true → EndsConditional below (nodes ++ before)

theorem EndsConditional.behind (h : EndsConditional below' ns)
    (reads : ∀ base, below base → ∃ base', nodes.foldlM read base = some base' ∧ below' base') :
    EndsConditional below (nodes ++ ns) := by
  obtain ⟨before, t, opener, rfl, conditional, top⟩ := h
  refine ⟨nodes ++ before, t, opener, (append_assoc ..).symm, conditional, fun base hbase => ?_⟩
  obtain ⟨base', first, hbase'⟩ := reads base hbase
  obtain ⟨stack, second⟩ := top base' hbase'
  refine ⟨stack, ?_⟩
  rw [foldlM_append, first]
  exact second

namespace Alternates

theorem plain (h : ∀ n ∈ ns, n.isAlternative = false) : Alternates below nodes ns := by
  rintro before n after rfl alternative
  rw [h n (by simp)] at alternative
  cases alternative

theorem single (h : n.isAlternative = false) : Alternates below nodes [n] :=
  .plain (forall_mem_singleton.mpr h)

theorem behind (h : Alternates below' [] ns)
    (reads : ∀ base, below base → ∃ base', nodes.foldlM read base = some base' ∧ below' base') :
    Alternates below nodes ns :=
  fun before n after split alternative => (h before n after split alternative).behind reads

theorem append (h : Alternates below nodes ns) (h' : Alternates below (nodes ++ ns) ms) :
    Alternates below nodes (ns ++ ms) := by
  intro before n after split alternative
  rcases append_eq_append_iff.mp split with ⟨inner, rfl, inside⟩ | ⟨inner, rfl, rest⟩
  · rw [← append_assoc]
    exact h' inner n after inside alternative
  · cases inner with
    | nil => simpa using h' [] n after rest.symm alternative
    | cons m inner =>
      cases rest
      exact h before n inner rfl alternative

end Alternates

end Program

open Program (EndsConditional Alternates)

namespace State

variable {s s' : State}

/-- The nodes of the group that is being deferred or, outside of deferred blocks, those of the program. -/
def listing (s : State) : List Node :=
  s.deferral.recording.getD (s.program.map (·.node))

def Below (s : State) (base : List Node) : Prop :=
  if s.deferral.recording.isSome then Impulse.Ready base else base = []

theorem Lists.reads_listing (h : s.Lists strict k) (below : s.Below base) :
    k.Below base ∧ s.listing.foldlM Program.read base = some (k.top ++ base) := by
  obtain ⟨program, group⟩ := k
  have recording := h.recording
  unfold Below at below
  unfold listing Stacks.Below Stacks.top
  cases hnodes : s.deferral.recording with
  | none =>
    rw [hnodes] at recording below
    cases recording
    obtain rfl : base = [] := below
    exact ⟨rfl, by simpa using h.program.foldlM_eq⟩
  | some nodes =>
    rw [hnodes] at recording below
    cases recording with
    | some reads => exact ⟨below, (reads base below).foldlM_eq⟩

theorem listing_emittedAll (s : State) (ns : List Node) :
    (s.emittedAll ns).listing = s.listing ++ ns ∧ (s.emittedAll ns).Below = s.Below := by
  unfold Below listing
  cases recording : s.deferral.recording with
  | none =>
    rw [emittedAll_direct ns recording, recording]
    simp [Function.comp_def, Entry.of]
  | some group =>
    rw [emittedAll_deferred ns recording]
    simp

/-- In all that was listed or deferred, branches go on behind branches with a condition. -/
structure Alternating (s : State) : Prop where
  program : Alternates (· = []) [] (s.program.map (·.node))
  recording : ∀ group ∈ s.deferral.recording, Alternates Impulse.Ready [] group
  groups : ∀ g ∈ s.deferral.groups, Alternates Impulse.Ready [] g.2

/-- Where a branch can go on, a branch with a condition was closed last. -/
def Marked (s : State) : Prop :=
  s.afterBranch = true → s.function ≠ none ∧ EndsConditional s.Below s.listing

namespace Alternating

theorem unlisted (program : s.program = []) (deferral : s.deferral = {}) : s.Alternating := by
  refine ⟨?_, ?_, ?_⟩
  · rw [program]
    exact .plain (forall_mem_nil _)
  · rw [deferral]
    intro _ member
    cases member
  · rw [deferral]
    exact forall_mem_nil _

variable (hs : s.Alternating)
include hs

theorem fewer (program : s'.program = s.program) (recording : s'.deferral.recording = s.deferral.recording)
    (groups : s'.deferral.groups ⊆ s.deferral.groups) : s'.Alternating :=
  ⟨program ▸ hs.program, recording ▸ hs.recording, fun g hg => hs.groups g (groups hg)⟩

theorem emittedAll (more : Alternates s.Below s.listing ns) : (s.emittedAll ns).Alternating := by
  unfold Below listing at more
  cases recording : s.deferral.recording with
  | none =>
    rw [recording] at more
    rw [emittedAll_direct ns recording]
    refine ⟨?_, by simp [recording], hs.groups⟩
    have whole := hs.program.append more
    simpa [Function.comp_def, Entry.of] using whole
  | some group =>
    rw [recording] at more
    rw [emittedAll_deferred ns recording]
    refine ⟨hs.program, ?_, hs.groups⟩
    have whole := (hs.recording group recording).append more
    simpa using whole

theorem deferred (lists : s.Lists strict k) :
    (∀ depth, Alternates Impulse.Ready [] (s.deferral.statementsAt depth)) ∧
      ∀ depth bottom, Alternates Impulse.Ready [] (s.deferral.pending depth bottom) := by
  have both := deferred_of (P := fun ns => ReadsAnywhere strict ns [] ∧ Alternates Impulse.Ready [] ns)
    ⟨fun _ _ => .nil _, .plain (forall_mem_nil _)⟩
    (fun hn hm => ⟨fun base ready => (hn.1 base ready).append (hm.1 base ready),
      hn.2.append (hm.2.behind fun base ready => ⟨base, (hn.1 base ready).foldlM_eq, ready⟩)⟩)
    fun g hg => ⟨lists.groups g hg, hs.groups g hg⟩
  exact ⟨fun depth => (both.1 depth).2, fun depth bottom => (both.2 depth bottom).2⟩

theorem returns (listed : s.Listed strict) (nested : s.Nested)
    (inside : s.function = some f) (noSwitch : s.inSwitch = false) :
    Alternates s.Below s.listing (s.deferral.pending s.depth f.depth) := by
  obtain ⟨k, headed, lists⟩ := listed
  have nesting := nested.nesting
  rw [inside] at nesting headed
  refine ((hs.deferred lists).2 _ _).behind fun base below => ?_
  obtain ⟨below, reads⟩ := lists.reads_listing below
  exact ⟨_, reads, headed.ready nesting (of_decide_eq_false noSwitch) below⟩

theorem closes (listed : s.Listed strict) (nested : s.Nested)
    (blocks : s.blocks = b :: rest) (kind : b.kind ≠ .struct ∧ b.kind ≠ .enum ∧ b.kind ≠ .deferred) :
    Alternates s.Below s.listing (s.deferral.statementsAt (rest.length + 1)) ∧
      ∃ n, b.HeadedBy s.function n ∧ ∀ base, s.Below base → ∃ stack,
        (s.listing ++ s.deferral.statementsAt (rest.length + 1)).foldlM Program.read base = some (n :: stack) := by
  obtain ⟨k, headed, lists⟩ := listed
  have nesting := nested.nesting
  rw [blocks] at headed nesting
  obtain ⟨-, f, hf, -⟩ := nesting.close_other kind
  obtain ⟨n, outer, rfl, -, head⟩ := headed.close_other kind
  have top : ∀ base, s.Below base → s.listing.foldlM Program.read base = some (n :: (outer.top ++ base)) := by
    intro base below
    simpa using (lists.reads_listing below).2
  by_cases isSwitch : b.kind = .switch
  · rw [nested.statementsAt_switch blocks isSwitch, append_nil]
    exact ⟨.plain (forall_mem_nil _), n, head, fun base below => ⟨_, top base below⟩⟩
  · have ready : ∀ base, s.Below base → Impulse.Ready (n :: (outer.top ++ base)) := by
      intro base below
      rw [hf] at headed nesting
      simpa using headed.ready nesting (by simpa using isSwitch) (lists.reads_listing below).1
    refine ⟨((hs.deferred lists).1 _).behind fun base below => ⟨_, top base below, ready base below⟩, n, head, ?_⟩
    intro base below
    refine ⟨outer.top ++ base, ?_⟩
    rw [foldlM_append, top base below]
    exact (lists.deferred.1 _ _ (ready base below)).foldlM_eq

theorem step (marked : s.Marked) (listed : s.Listed strict) (nested : s.Nested)
    (h : Step settings s s') : s'.Alternating := by
  obtain ⟨es, tells, told⟩ := Tells.of_step nested h
  have quiet : ∀ n : Node, n.isSilent = true → n.isAlternative = false := by
    intro n silent
    unfold Node.isSilent at silent
    split at silent <;> first | rfl | cases silent
  have emits : ∀ {ns}, Alternates s.Below s.listing ns → s'.program = (s.emittedAll ns).program →
      s'.deferral = (s.emittedAll ns).deferral → s'.Alternating := fun more program deferral =>
    (hs.emittedAll more).fewer program (by rw [deferral]) (by rw [deferral]; exact List.Subset.refl _)
  cases tells with
  | lists ns _ program deferral =>
    refine emits (.plain fun n hn => ?_) program deferral
    cases told _ (mem_map_of_mem hn) with
    | silent silent => exact quiet n (silent n rfl)
    | write h => cases h <;> rfl
    | define => rfl
  | opens n _ program deferral =>
    refine emits ?_ program deferral
    cases told _ (mem_singleton_self _) with
    | silent silent => exact .single (quiet n (silent n rfl))
    | loop => exact .single rfl
    | begin _ _ _ follows =>
      intro before m after split alternative
      obtain ⟨rfl, rfl, -⟩ : before = [] ∧ m = n ∧ after = [] := by
        cases before with
        | nil => simpa [eq_comm] using split
        | cons => simp at split
      rw [append_nil]
      exact (marked (follows alternative)).2
  | @closes b rest t scope blocks kind =>
    have others : b.kind ≠ .struct ∧ b.kind ≠ .enum ∧ b.kind ≠ .deferred := by
      simpa [Block.schedules, and_assoc] using kind
    have shut : Alternating { s with
        blocks := rest, afterBranch := b.kind = .branch, deferral := s.deferral.without (rest.length + 1) } :=
      hs.fewer rfl rfl filter_sublist.subset
    have ended := shut.emittedAll
      ((hs.closes listed nested blocks others).1.append (.single (n := .plain t .blockEnd) rfl))
    rw [emittedAll_append] at ended
    unfold State.closed
    split
    · exact ended.fewer rfl rfl filter_sublist.subset
    · exact ended.fewer rfl rfl (List.Subset.refl _)
  | @returns f pending t value inside _ deferred noSwitch =>
    have flushed : Alternates s.Below s.listing pending := by
      rcases deferred with ⟨-, rfl⟩ | ⟨-, rfl⟩
      · exact .plain (forall_mem_nil _)
      · exact hs.returns listed nested inside noSwitch
    have ended := hs.emittedAll (flushed.append (.single (n := .returned t value) rfl))
    rwa [emittedAll_append] at ended
  | defers _ _ program deferral =>
    rw [Deferral.start] at deferral
    refine ⟨program ▸ hs.program, ?_, ?_⟩
    · rw [deferral]
      exact fun group member => Option.some.inj member ▸ .plain (forall_mem_nil _)
    · rw [deferral]
      exact hs.groups
  | collects program deferral =>
    refine ⟨program ▸ hs.program, ?_, ?_⟩
    · rw [deferral, Deferral.finish]
      split <;> simp
    · rw [deferral, Deferral.finish]
      split
      · next n ns recording =>
        intro g hg
        rcases mem_append.mp hg with old | new
        · exact hs.groups g old
        · obtain rfl := mem_singleton.mp new
          exact hs.recording _ recording
      · exact hs.groups

end Alternating

theorem Marked.outside (hs : s.Marked) (outside : s.function = none) : s.afterBranch = false :=
  Bool.eq_false_iff.mpr fun marked => (hs marked).1 outside

theorem Marked.step (hs : s.Marked) (alternating : s.Alternating) (listed : s.Listed strict) (nested : s.Nested)
    (h : Step settings s s') : s'.Marked := by
  intro marked
  cases h with
  | idle => exact hs (Bool.and_eq_true_iff.mp marked).2
  | load | mark | structField | enumField => exact hs marked
  | declare _ h => cases h <;> exact hs marked
  | header _ _ bottom =>
    have nesting := nested.nesting
    rw [bottom] at nesting
    simp [hs.outside nesting.function_eq_none] at marked
  | write _ _ unmarked | result _ _ _ _ _ _ unmarked => simp [unmarked] at marked
  | define _ h _ _ _ _ _ unmarked => cases h <;> simp [unmarked] at marked
  | begin => simp [opened] at marked
  | loop _ _ _ _ _ _ _ counts _ _ unmarked =>
    cases counts with
    | known => simp [opened, unmarked] at marked
    | introduced _ declared => cases declared <;> simp [opened, unmarked] at marked
  | defer _ _ _ _ unmarked => simp [opened, unmarked] at marked
  | fields _ _ out => simp [finishedFields, hs.outside out] at marked
  | function _ _ _ out => simp [entered, opened, hs.outside out] at marked
  | struct _ _ _ out | enum _ _ out => simp [recorded, opened, hs.outside out] at marked
  | closeStruct | closeEnum | closeDeferred => cases marked
  | @closeOther t b rest scope blocks kind =>
    obtain ⟨-, n, head, top⟩ := alternating.closes listed nested blocks kind
    have nesting := nested.nesting
    rw [blocks] at nesting
    obtain ⟨-, f, hf, -⟩ := nesting.close_other kind
    have branch : b.kind = .branch := by
      unfold State.closed at marked
      split at marked <;> simpa using marked
    have noFunction : b.kind ≠ .function := by simp [branch]
    rw [closed_function, if_neg noFunction]
    refine ⟨by simp [hf], ?_⟩
    unfold State.closed
    rw [if_neg noFunction]
    obtain ⟨listing, below⟩ := listing_emittedAll { s with
        blocks := rest, afterBranch := b.kind = .branch, deferral := s.deferral.without (rest.length + 1) }
      (s.deferral.statementsAt (rest.length + 1) ++ [.plain t .blockEnd])
    rw [emittedAll_append] at listing below
    refine ⟨s.listing ++ s.deferral.statementsAt (rest.length + 1), t, n, ?_, head.conditional branch, ?_⟩
    · exact listing.trans (append_assoc ..).symm
    · intro base hbase
      exact top base (below ▸ hbase)

theorem Alternating.absorbed (hs : s.Alternating)
    (listed : s.Listed strict) (bottom : s.blocks = []) (hc : c.Alternating) :
    ((s.noted t source).absorbed c merged).Alternating := by
  have known : Alternating { s with context := (s.context.markImported source.key).2 } :=
    hs.fewer rfl rfl (List.Subset.refl _)
  have noted : (s.noted t source).Alternating :=
    known.emittedAll (.single (n := .plain t (.source source.path)) rfl)
  have reads := (listed.noted bottom t source).of_blocks_nil (by simpa [State.noted] using bottom)
  refine ⟨?_, noted.recording, noted.groups⟩
  unfold State.absorbed
  rw [map_append]
  refine noted.program.append (hc.program.behind ?_)
  rintro base rfl
  exact ⟨[], reads.foldlM_eq, rfl⟩

theorem Alternating.steps (hs : s.Alternating) (marked : s.Marked) (complete : s.Complete) (nested : s.Nested)
    (listed : s.Listed (settings.feature .strictTypes = true)) (h : Steps settings s s') :
    s'.Alternating ∧ s'.Marked := by
  refine (Steps.invariant (P := fun s => s.Complete ∧ s.Nested ∧ s.Listed _ ∧ s.Alternating ∧ s.Marked)
    ?_ ?_ ?_ h ⟨complete, nested, listed, hs, marked⟩).2.2.2
  · intro s s' ⟨complete, nested, listed, hs, marked⟩ h
    exact ⟨complete.step h, nested.step h, listed.step complete nested h, hs.step marked listed nested h,
      marked.step hs listed nested h⟩
  · intro s t source last ⟨complete, _⟩ _
    exact ⟨complete.child t source last, .child _ source last, .child _ source last, .unlisted rfl rfl, (by rintro ⟨⟩)⟩
  · intro s t source last c merged ⟨complete, nested, listed, hs, marked⟩ bottom _ ⟨completeChild, _, hcListed, hc, _⟩ done taken
    refine ⟨complete.absorbed completeChild taken, nested.absorbed _ _ _ _, listed.absorbed bottom hcListed done,
      hs.absorbed listed bottom hc, fun mark => ?_⟩
    have nesting := nested.nesting
    rw [bottom] at nesting
    simp [State.absorbed, State.noted, marked.outside nesting.function_eq_none] at mark

end State

theorem Node.read_blockEnd (h : n.isConditional = true) (t : Token) (stack : List Node) :
    Program.read (n :: stack) (.plain t .blockEnd) = some stack := by
  unfold Node.isConditional at h
  split at h
  · rfl
  · cases h

/-- Before every branch of an accepted program that goes on behind another one stands the end of a block, which closes
the header of a branch with a condition. -/
theorem compile_branches (accepted : (compile settings library path text).stop = none) :
    ∀ before e after, (compile settings library path text).program = before ++ e :: after →
      e.node.isAlternative = true → ∃ before' close t opener stack, before = before' ++ [close] ∧
        close.node = .plain t .blockEnd ∧ Program.readAll [] before' = some (opener :: stack) ∧
        opener.isConditional = true ∧ Program.read (opener :: stack) close.node = some stack := by
  intro before e after split alternative
  obtain ⟨last, s, steps, -, program, -⟩ := compile_ok accepted
  have alternating := State.Alternating.steps (.unlisted rfl rfl) (by rintro ⟨⟩) (.start library path text last) (.start ..)
    (.start ..) steps
  rw [program] at split
  have nodes : s.program.map (·.node) = before.map (·.node) ++ e.node :: after.map (·.node) := by
    rw [split, map_append, map_cons]
  obtain ⟨ended, t, opener, same, conditional, top⟩ := alternating.1.program _ _ _ nodes alternative
  obtain ⟨before', ends, rfl, rfl, closing⟩ := map_eq_append_iff.mp same
  obtain ⟨close, rfl, isEnd⟩ := map_eq_singleton_iff.mp closing
  obtain ⟨stack, reads⟩ := top [] rfl
  rw [foldlM_map] at reads
  exact ⟨before', close, t, opener, stack, rfl, isEnd, reads, conditional,
    isEnd ▸ Node.read_blockEnd conditional t stack⟩

/-- A chain of branches that is deferred, and listed once more in another one. -/
def deferredChain : String :=
  "f :: (n: int) \x7b defer \x7b if (n = 1) \x7b \x7d orif (n = 2) \x7b \x7d else \x7b \x7d \x7d " ++
    "if (n = 3) \x7b return; \x7d else \x7b \x7d \x7d"

theorem compile_branches_deferredChain :
    (compile Settings.plain (.memory []) "main.imp" deferredChain).stop = none ∧
    ∃ before e after before' close opener stack,
      (compile Settings.plain (.memory []) "main.imp" deferredChain).program = before ++ e :: after ∧
      e.node.isAlternative = true ∧ before = before' ++ [close] ∧
      Program.readAll [] before' = some (opener :: stack) ∧ opener.isConditional = true := by
  have accepted : (compile Settings.plain (.memory []) "main.imp" deferredChain).stop = none :=
    Option.isNone_iff_eq_none.mp (by decide +kernel)
  have chained : ((compile Settings.plain (.memory []) "main.imp" deferredChain).program.any
      (·.node.isAlternative)) = true := by decide +kernel
  obtain ⟨e, he, alternative⟩ := any_eq_true.mp chained
  obtain ⟨before, after, split⟩ := append_of_mem he
  obtain ⟨before', close, -, opener, stack, ended, -, reads, conditional, -⟩ :=
    compile_branches accepted before e after split alternative
  exact ⟨accepted, before, e, after, before', close, opener, stack, split, alternative, ended, reads, conditional⟩

end Impulse
