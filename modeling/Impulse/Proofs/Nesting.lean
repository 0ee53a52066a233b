import Impulse.Proofs.Steps

/-!
# How open blocks nest

At most one record and at most one function are open at a time: a function stands at the top level or in a
struct, and everything else stands in a function. So the open blocks, the frames of the scope, the open function,
the open record and the group that is being deferred always fit together, and no end of a block finds anything
missing.
-/

namespace Impulse

open List

/-- The blocks that stand in functions and are listed where they are. -/
def BlockKind.isControl : BlockKind → Bool
  | .branch | .otherwise | .switch | .arm | .loop | .iterate | .bare => true
  | .function | .struct | .enum | .deferred => false

theorem BlockKind.of_isControl {kind : BlockKind} (h : kind.isControl = true) :
    kind ≠ .function ∧ kind ≠ .struct ∧ kind ≠ .enum ∧ kind ≠ .deferred := by
  revert h
  cases kind <;> decide

/-- The ways in which blocks nest, innermost first, with the function and the record that are open and with
whether a group is being deferred. -/
inductive Nesting : List Block → Option FunctionInfo → Option Record → Bool → Prop
  | empty : Nesting [] none none false
  | record {b : Block} {r : Record} (kind : b.kind = r.kind) (framed : b.framed = false) :
      Nesting [b] none (some r) false
  | function {b : Block} {blocks : List Block} {r : Option Record} {f : FunctionInfo}
      (outer : Nesting blocks none r false) (kind : b.kind = .function) (framed : b.framed = true)
      (depth : f.depth = blocks.length + 1) : Nesting (b :: blocks) (some f) r false
  | control {b : Block} {blocks : List Block} {r : Option Record} {f : FunctionInfo}
      {recording : Bool} (outer : Nesting blocks (some f) r recording)
      (kind : b.kind.isControl = true) (framed : b.framed = true) :
      Nesting (b :: blocks) (some f) r recording
  | deferred {b : Block} {blocks : List Block} {r : Option Record} {f : FunctionInfo}
      (outer : Nesting blocks (some f) r false) (kind : b.kind = .deferred)
      (framed : b.framed = true) : Nesting (b :: blocks) (some f) r true

namespace Nesting

theorem depth_le (h : Nesting blocks (some g) r recording) : g.depth ≤ blocks.length := by
  generalize hf : some g = f at h
  induction h with
  | empty | record => cases hf
  | function _ _ _ depth =>
    cases hf
    exact Nat.le_of_eq depth
  | control _ _ _ ih | deferred _ _ _ ih => exact Nat.le_succ_of_le (ih hf)

theorem blocks_eq_nil (h : Nesting blocks none none recording) : blocks = [] ∧ recording = false := by
  cases h
  exact ⟨rfl, rfl⟩

theorem function_eq_none (h : Nesting [] f r recording) : f = none := by
  cases h
  rfl

theorem not_recording (h : Nesting blocks none r recording) : recording = false := by
  cases h <;> rfl

theorem of_nil (h : Nesting [] f r recording) : f = none ∧ r = none ∧ recording = false := by
  cases h
  exact ⟨rfl, rfl, rfl⟩

theorem setRecord (h : Nesting blocks none (some old) recording)
    (kind : new.kind = old.kind) : Nesting blocks none (some new) recording := by
  cases h with
  | record hkind framed => exact .record (hkind.trans kind.symm) framed

section

variable (h : Nesting (b :: blocks) f r recording)
include h

theorem close_record (kind : b.kind = .struct ∨ b.kind = .enum) :
    blocks = [] ∧ f = none ∧ (∃ rec, r = some rec ∧ b.kind = rec.kind) ∧ b.framed = false ∧ recording = false := by
  cases h with
  | record hkind framed => exact ⟨rfl, rfl, ⟨_, rfl, hkind⟩, framed, rfl⟩
  | function _ hkind | control _ hkind | deferred _ hkind => rcases kind with h | h <;> rw [h] at hkind <;> cases hkind

theorem close_deferred (kind : b.kind = .deferred) :
    ∃ g, f = some g ∧ Nesting blocks (some g) r false ∧ b.framed = true := by
  cases h with
  | @record b rec hkind framed =>
    rw [hkind] at kind
    cases rec <;> cases kind
  | function _ hkind =>
    rw [hkind] at kind
    cases kind
  | control _ hkind =>
    rw [kind] at hkind
    cases hkind
  | deferred outer _ framed => exact ⟨_, rfl, outer, framed⟩

theorem close_other (kind : b.kind ≠ .struct ∧ b.kind ≠ .enum ∧ b.kind ≠ .deferred) :
    b.framed = true ∧ ∃ g, f = some g ∧ (b.kind = .function ∧ Nesting blocks none r false ∧ recording = false ∧
          g.depth = blocks.length + 1 ∨ b.kind.isControl = true ∧ Nesting blocks (some g) r recording) := by
  cases h with
  | @record b rec hkind framed =>
    cases rec
    · exact absurd hkind kind.1
    · exact absurd hkind kind.2.1
  | function outer hkind framed depth => exact ⟨framed, _, rfl, .inl ⟨hkind, outer, rfl, depth⟩⟩
  | control outer hkind framed => exact ⟨framed, _, rfl, .inr ⟨hkind, outer⟩⟩
  | deferred outer hkind framed => exact absurd hkind kind.2.2

theorem function_of_switch (kind : b.kind = .switch) : f ≠ none := by
  have other := h.close_other (by simp [kind])
  obtain ⟨-, g, rfl, -⟩ := other
  exact nofun

end

theorem any_deferred (h : Nesting blocks f r recording) : blocks.any (fun b => b.kind = .deferred) = recording := by
  induction h with
  | empty => rfl
  | @record b r kind =>
    have : b.kind ≠ .deferred := by
      rw [kind]
      cases r <;> exact nofun
    simp [this]
  | function outer kind framed depth ih => simpa [kind] using ih
  | @control b blocks r f recording outer kind framed ih =>
    have : b.kind ≠ .deferred := by
      intro hb
      rw [hb] at kind
      cases kind
    rw [any_cons, ih, decide_eq_false this, Bool.false_or]
  | deferred outer kind framed ih => simp [kind]

end Nesting

/-- The depth of the innermost block that is not part of a deferred one. Groups are deferred there or further
out. -/
def groupLimit : List Block → Nat
  | [] => 0
  | b :: bs =>
    if b.kind = .deferred then bs.length
    else if bs.any fun b => b.kind = .deferred then groupLimit bs
    else bs.length + 1

theorem Nesting.groupLimit_eq_length (h : Nesting blocks f r false) : groupLimit blocks = blocks.length := by
  have none := h.any_deferred
  cases blocks with
  | nil => rfl
  | cons b bs =>
    rw [any_cons, Bool.or_eq_false_iff, decide_eq_false_iff_not] at none
    rw [groupLimit, if_neg none.1, if_neg (by simp [none.2])]
    rfl

theorem groupLimit_le_length (blocks : List Block) : groupLimit blocks ≤ blocks.length := by
  induction blocks with
  | nil => exact Nat.le_refl _
  | cons b bs ih =>
    rw [groupLimit, length_cons]
    split
    · exact Nat.le_succ _
    · split
      · exact Nat.le_succ_of_le ih
      · exact Nat.le_refl _

/-- Cases stand in switches. Nothing is deferred in a switch, so no group leaves with one. -/
structure Arranged (blocks : List Block) (groups : List (Nat × List Node)) : Prop where
  arms : ∀ b outer, b :: outer <:+ blocks → b.kind = .arm → outer.head?.map (·.kind) = some .switch
  defers : ∀ b outer, b :: outer <:+ blocks → b.kind = .deferred →
    outer.head?.map (·.kind) ≠ some .switch
  spared : ∀ g ∈ groups, ∀ b outer, b :: outer <:+ blocks → b.kind = .switch → g.1 ≠ outer.length + 1

namespace Arranged

theorem nil (groups : List (Nat × List Node)) : Arranged [] groups := by
  constructor <;> simp

theorem shrink (h : Arranged blocks groups) (inner : blocks' <:+ blocks) (fewer : groups' ⊆ groups) :
    Arranged blocks' groups' :=
  ⟨fun b outer suffix => h.arms b outer (suffix.trans inner),
    fun b outer suffix => h.defers b outer (suffix.trans inner),
    fun g hg b outer suffix => h.spared g (fewer hg) b outer (suffix.trans inner)⟩

theorem push (h : Arranged blocks groups)
    (arm : b.kind = .arm → blocks.head?.map (·.kind) = some .switch)
    (defer : b.kind = .deferred → blocks.head?.map (·.kind) ≠ some .switch)
    (below : ∀ g ∈ groups, g.1 ≤ blocks.length) : Arranged (b :: blocks) groups := by
  have cases_of : ∀ {c outer}, c :: outer <:+ b :: blocks →
      c = b ∧ outer = blocks ∨ c :: outer <:+ blocks := by
    intro c outer suffix
    simpa using suffix_cons_iff.mp suffix
  refine ⟨fun c outer suffix => ?_, fun c outer suffix => ?_, fun g hg c outer suffix => ?_⟩
  · rcases cases_of suffix with ⟨rfl, rfl⟩ | inner
    · exact arm
    · exact h.arms c outer inner
  · rcases cases_of suffix with ⟨rfl, rfl⟩ | inner
    · exact defer
    · exact h.defers c outer inner
  · rcases cases_of suffix with ⟨rfl, rfl⟩ | inner
    · exact fun _ => Nat.ne_of_lt (Nat.lt_succ_of_le (below g hg))
    · exact h.spared g hg c outer inner

end Arranged

/-- The number of blocks that have a frame of variables. -/
def framedCount (blocks : List Block) : Nat :=
  (blocks.filter (·.framed)).length

namespace State

/-- The open blocks fit to the function, the record, the frames of the scope and the deferred groups. -/
structure Nested (s : State) : Prop where
  nesting : Nesting s.blocks s.function s.record s.deferral.isRecording
  frames : s.scope.depth = framedCount s.blocks
  groups : ∀ g ∈ s.deferral.groups,
    ∃ f, s.function = some f ∧ f.depth ≤ g.1 ∧ g.1 ≤ groupLimit s.blocks
  arranged : Arranged s.blocks s.deferral.groups

namespace Nested

variable {s s' : State}

section

variable (hs : s.Nested)
include hs

theorem group_le : ∀ g ∈ s.deferral.groups, g.1 ≤ s.blocks.length := by
  intro g hg
  obtain ⟨-, -, -, high⟩ := hs.groups g hg
  exact Nat.le_trans high (groupLimit_le_length _)

theorem noSwitch_outside (outside : s.function = none) : s.blocks.head?.map (·.kind) ≠ some .switch := by
  intro inSwitch
  have nesting := hs.nesting
  cases hblocks : s.blocks with
  | nil => simp [hblocks] at inSwitch
  | cons b rest =>
    rw [hblocks] at inSwitch nesting
    exact nesting.function_of_switch (Option.some.inj inSwitch) outside

theorem statementsAt_switch (blocks : s.blocks = b :: rest)
    (kind : b.kind = .switch) : s.deferral.statementsAt (rest.length + 1) = [] := by
  have arranged := hs.arranged
  rw [blocks] at arranged
  have none : s.deferral.groups.filter (·.1 == rest.length + 1) = [] :=
    filter_eq_nil_iff.mpr fun g hg here =>
      arranged.spared g hg b rest suffix_rfl kind (eq_of_beq here)
  rw [Deferral.statementsAt, none]
  rfl

theorem congr (blocks : s'.blocks = s.blocks) (function : s'.function = s.function) (record : s'.record = s.record)
    (depth : s'.scope.depth = s.scope.depth) (recording : s'.deferral.isRecording = s.deferral.isRecording)
    (groups : s'.deferral.groups = s.deferral.groups) : s'.Nested := by
  refine ⟨?_, ?_, ?_, ?_⟩
  · rw [blocks, function, record, recording]
    exact hs.nesting
  · rw [depth, blocks]
    exact hs.frames
  · rw [groups, function, blocks]
    exact hs.groups
  · rw [blocks, groups]
    exact hs.arranged

theorem emitted (n : Node) : (s.emitted n).Nested :=
  hs.congr (by simp) (by simp) (by simp) (by simp) (by simp) (by simp)

theorem emittedAll (ns : List Node) : (s.emittedAll ns).Nested :=
  hs.congr (by simp) (by simp) (by simp) (by simp) (by simp) (by simp)

theorem declares (h : s.Declares x s') : s'.Nested := by
  cases h with
  | asGlobal => exact hs.congr rfl rfl rfl rfl rfl rfl
  | asLocal may inside declared =>
    refine hs.congr rfl rfl rfl ?_ rfl rfl
    exact congrArg List.length (Scope.below_declareList? declared)

end

theorem opened (hs : s.Nested) (inside : s.function ≠ none) {b : Block}
    (kind : b.kind.isControl = true) (framed : b.framed = true)
    (arm : b.kind = .arm → s.blocks.head?.map (·.kind) = some .switch) : (s.opened b).Nested := by
  obtain ⟨f, hf⟩ := Option.ne_none_iff_exists'.mp inside
  have notDeferred := (BlockKind.of_isControl kind).2.2.2
  refine ⟨?_, ?_, ?_, hs.arranged.push arm (absurd · notDeferred) hs.group_le⟩
  · have hnesting := hs.nesting
    rw [hf] at hnesting
    rw [State.opened]
    dsimp only
    rw [hf]
    exact .control hnesting kind framed
  · have hframes := hs.frames
    simp only [Scope.depth, framedCount] at hframes
    simp [State.opened, Scope.depth, Scope.push, framedCount, framed, hframes]
  · intro g hg
    obtain ⟨f, hf, hlow, hhigh⟩ := hs.groups g hg
    refine ⟨f, hf, hlow, Nat.le_trans hhigh ?_⟩
    rw [State.opened, groupLimit, if_neg notDeferred, hs.nesting.any_deferred]
    split
    · exact Nat.le_refl _
    · next direct =>
      have hnesting := hs.nesting
      rw [Bool.not_eq_true] at direct
      rw [direct] at hnesting
      rw [hnesting.groupLimit_eq_length]
      exact Nat.le_succ _

theorem begin (hs : s.Nested) (h : s.Opens settings n b) : ((s.emitted n).opened b).Nested := by
  have control : ∀ {b : Block}, s.function ≠ none → b.kind.isControl = true → b.framed = true →
      (b.kind = .arm → s.blocks.head?.map (·.kind) = some .switch) →
      ((s.emitted n).opened b).Nested := fun inside kind framed arm =>
    (hs.emitted n).opened (by simpa using inside) kind framed (by simpa using arm)
  cases h with
  | bare _ inside | branch _ _ _ _ _ inside | otherwise _ _ inside | switch _ _ inside | iterate _ _ _ _ inside =>
    exact control inside rfl rfl nofun
  | arm _ _ _ _ blocks kind =>
    have hnesting := hs.nesting
    rw [blocks] at hnesting
    exact control (hnesting.function_of_switch kind) rfl rfl fun _ => by simp [blocks, kind]

theorem entered (hs : s.Nested) (t brace : Token) (placeholders : List String)
    (outside : s.function = none) : (s.entered t brace sig placeholders).Nested := by
  have hnesting := hs.nesting
  rw [outside] at hnesting
  have direct := hnesting.not_recording
  refine ⟨?_, ?_, ?_, ?_⟩
  · simp only [State.entered, State.opened, emitted_blocks, emitted_record, emitted_isRecording]
    rw [direct] at hnesting ⊢
    exact .function hnesting rfl rfl (by simp [State.depth])
  · have hframes := hs.frames
    simp only [Scope.depth, framedCount] at hframes
    simp [State.entered, State.opened, Scope.depth, Scope.push, framedCount, hframes]
  · intro g hg
    simp only [State.entered, State.opened, emitted_groups] at hg
    obtain ⟨f, hf, -⟩ := hs.groups g hg
    rw [outside] at hf
    cases hf
  · simp only [State.entered, State.opened, emitted_groups, emitted_blocks]
    exact hs.arranged.push nofun nofun hs.group_le

theorem recorded (hs : s.Nested) (r : Record) (t brace : Token) (form : Form Node) (outside : s.function = none)
    (noRecord : s.record = none) : (s.recorded r t brace form).Nested := by
  have hnesting := hs.nesting
  rw [outside, noRecord] at hnesting
  obtain ⟨hblocks, hrecording⟩ := hnesting.blocks_eq_nil
  refine ⟨?_, ?_, ?_, ?_⟩
  · simp only [State.recorded, State.opened, emitted_blocks, emitted_function, emitted_record,
      emitted_isRecording, hblocks, outside, hrecording]
    exact .record rfl rfl
  · have hframes := hs.frames
    simp only [Scope.depth, framedCount, hblocks] at hframes
    simp [State.recorded, State.opened, Scope.depth, framedCount, hblocks, hframes]
  · intro g hg
    simp only [State.recorded, State.opened, emitted_groups] at hg
    obtain ⟨f, hf, -⟩ := hs.groups g hg
    rw [outside] at hf
    cases hf
  · simp only [State.recorded, State.opened, emitted_groups, emitted_blocks]
    exact hs.arranged.push (by cases r <;> nofun) (by cases r <;> nofun) hs.group_le

theorem setRecord (hs : s.Nested) (record : s.record = some old) (kind : new.kind = old.kind)
    (outside : s.function = none) : Nested { s with record := some new } := by
  have hnesting := hs.nesting
  rw [record, outside] at hnesting
  refine ⟨?_, hs.frames, hs.groups, hs.arranged⟩
  dsimp only
  rw [outside]
  exact hnesting.setRecord kind

theorem record_only (hs : s.Nested) (record : s.record = some r)
    (outside : s.function = none) : ∃ b, s.blocks = [b] ∧ b.kind = r.kind := by
  have nesting := hs.nesting
  rw [record, outside] at nesting
  generalize s.blocks = blocks at nesting
  generalize s.deferral.isRecording = recording at nesting
  cases nesting with
  | record kind framed => exact ⟨_, rfl, kind⟩

theorem close_record (hs : s.Nested) (blocks : s.blocks = b :: rest)
    (kind : b.kind = .struct ∨ b.kind = .enum) :
    rest = [] ∧ s.function = none ∧ (∃ r, s.record = some r ∧ b.kind = r.kind) ∧
      s.scope.depth = 0 ∧ s.deferral.isRecording = false ∧ s.deferral.groups = [] := by
  have hnesting := hs.nesting
  rw [blocks] at hnesting
  obtain ⟨hrest, outside, hrecord, framed, recording⟩ := hnesting.close_record kind
  refine ⟨hrest, outside, hrecord, ?_, recording, ?_⟩
  · have := hs.frames
    simpa [blocks, framedCount, framed, hrest] using this
  · refine eq_nil_iff_forall_not_mem.mpr fun g hg => ?_
    obtain ⟨f, hf, -⟩ := hs.groups g hg
    rw [outside] at hf
    cases hf

theorem cleared (hs : s.Nested) (blocks : s.blocks = b :: rest) (kind : b.kind = .struct ∨ b.kind = .enum) :
    Nested { s with blocks := rest, afterBranch := false, record := none } := by
  obtain ⟨rfl, outside, -, depth, recording, groups⟩ := hs.close_record blocks kind
  refine ⟨?_, depth, ?_, .nil _⟩
  · dsimp only
    rw [outside, recording]
    exact .empty
  · intro g hg
    rw [groups] at hg
    cases hg

theorem finishedFields (hs : s.Nested) (record : s.record = some (.struct d))
    (outside : s.function = none) : (s.finishedFields d).Nested := by
  have closing : Nested { s with record := some (.struct { d with fieldsOpen := false }) } :=
    hs.setRecord record rfl outside
  refine Nested.emitted (Nested.emitted ?_ _) _
  exact closing.congr rfl rfl rfl rfl rfl rfl

theorem finishedEnum (hs : s.Nested) (d : EnumDraft) : (s.finishedEnum d).Nested :=
  hs.congr (by simp [State.finishedEnum]) (by simp [State.finishedEnum])
    (by simp [State.finishedEnum]) (by simp [State.finishedEnum]) (by simp [State.finishedEnum])
    (by simp [State.finishedEnum])

theorem pop_frame (hs : s.Nested) (blocks : s.blocks = b :: rest) (framed : b.framed = true) :
    ∃ scope, s.scope.pop? = some scope ∧ scope.depth = framedCount rest := by
  have hframes := hs.frames
  rw [blocks, framedCount, filter_cons_of_pos framed] at hframes
  unfold Scope.pop?
  cases hbelow : s.scope.below with
  | nil => simp [Scope.depth, hbelow] at hframes
  | cons frame below =>
    refine ⟨_, rfl, ?_⟩
    simpa [Scope.depth, hbelow, framedCount] using hframes

theorem defer (hs : s.Nested) (brace : Token) (inside : s.function ≠ none)
    (direct : s.deferral.isRecording = false) (noSwitch : s.inSwitch = false) :
    Nested { s.opened { kind := .deferred, token := brace, framed := true } with
      deferral := s.deferral.start } := by
  obtain ⟨f, hf⟩ := Option.ne_none_iff_exists'.mp inside
  have hnesting := hs.nesting
  rw [hf, direct] at hnesting
  refine ⟨?_, ?_, ?_, hs.arranged.push nofun (fun _ => of_decide_eq_false noSwitch) hs.group_le⟩
  · rw [State.opened]
    dsimp only
    rw [hf]
    exact .deferred hnesting rfl rfl
  · have hframes := hs.frames
    simp only [Scope.depth, framedCount] at hframes
    simp [State.opened, Scope.depth, Scope.push, framedCount, hframes]
  · intro g hg
    obtain ⟨f, hf, hlow, hhigh⟩ := hs.groups g hg
    rw [hnesting.groupLimit_eq_length] at hhigh
    exact ⟨f, hf, hlow, hhigh⟩

theorem closeDeferred (hs : s.Nested) {scope : Scope}
    (blocks : s.blocks = b :: rest) (kind : b.kind = .deferred) (popped : s.scope.pop? = some scope) :
    Nested { s with
      blocks := rest, afterBranch := false, scope := scope
      deferral := s.deferral.finish rest.length } := by
  have hnesting := hs.nesting
  rw [blocks] at hnesting
  obtain ⟨f, hf, outer, framed⟩ := hnesting.close_deferred kind
  obtain ⟨scope', hpop, hdepth⟩ := hs.pop_frame blocks framed
  obtain rfl : scope = scope' := by
    rw [popped] at hpop
    exact Option.some.inj hpop
  have ended : (s.deferral.finish rest.length).isRecording = false := by
    unfold Deferral.finish
    split <;> rfl
  have hlimit := outer.groupLimit_eq_length
  have arranged := hs.arranged
  rw [blocks] at arranged
  refine ⟨?_, hdepth, ?_, ?_⟩
  · dsimp only
    rw [ended, hf]
    exact outer
  · intro g hg
    dsimp only
    rw [hlimit]
    -- A group that was deferred before lies outside of the deferred block.
    have old : g ∈ s.deferral.groups →
        ∃ f, s.function = some f ∧ f.depth ≤ g.1 ∧ g.1 ≤ rest.length := by
      intro hold
      have := hs.groups g hold
      rwa [blocks, groupLimit, if_pos kind] at this
    unfold Deferral.finish at hg
    split at hg
    · rcases mem_append.mp hg with hold | hnew
      · exact old hold
      · obtain rfl := mem_singleton.mp hnew
        exact ⟨f, hf, outer.depth_le, Nat.le_refl _⟩
    · exact old hg
  · have kept := arranged.shrink (suffix_cons b rest) (List.Subset.refl _)
    unfold Deferral.finish
    split
    · refine ⟨kept.arms, kept.defers, fun g hg c outer suffix isSwitch => ?_⟩
      rcases mem_append.mp hg with hold | hnew
      · exact kept.spared g hold c outer suffix isSwitch
      · obtain rfl := mem_singleton.mp hnew
        -- A group of this depth belongs to the innermost block, which is no switch.
        intro same
        have whole : c :: outer = rest := suffix.eq_of_length same.symm
        refine arranged.defers b rest suffix_rfl kind ?_
        simp [← whole, isSwitch]
    · exact kept

theorem closed (hs : s.Nested) (t : Token) {scope : Scope}
    (blocks : s.blocks = b :: rest) (kind : b.kind ≠ .struct ∧ b.kind ≠ .enum ∧ b.kind ≠ .deferred)
    (popped : if b.framed then s.scope.pop? = some scope else scope = s.scope) : (s.closed b rest t scope).Nested := by
  have hnesting := hs.nesting
  rw [blocks] at hnesting
  obtain ⟨framed, f, hf, hcase⟩ := hnesting.close_other kind
  have arranged : Arranged (s.closed b rest t scope).blocks (s.closed b rest t scope).deferral.groups := by
    rw [closed_blocks, closed_groups]
    refine hs.arranged.shrink (by rw [blocks]; exact suffix_cons b rest) ?_
    split
    · exact (filter_sublist.trans filter_sublist).subset
    · exact filter_sublist.subset
  obtain ⟨scope', hpop, hdepth⟩ := hs.pop_frame blocks framed
  rw [if_pos framed, hpop] at popped
  obtain rfl := Option.some.inj popped
  rcases hcase with ⟨isFunction, outer, direct, depth⟩ | ⟨isControl, outer⟩
  · refine ⟨?_, by rw [closed_scope, closed_blocks]; exact hdepth, ?_, arranged⟩
    · rw [closed_blocks, closed_function, if_pos isFunction, closed_record, closed_isRecording, direct]
      exact outer
    · intro g hg
      rw [closed_groups, if_pos isFunction] at hg
      obtain ⟨hg, hbelow⟩ := mem_filter.mp hg
      obtain ⟨f', hf', hlow, -⟩ := hs.groups g (mem_filter.mp hg).1
      rw [hf] at hf'
      cases hf'
      have : g.1 < rest.length + 1 := by simpa using hbelow
      omega
  · have notFunction : b.kind ≠ .function := by
      intro hb
      rw [hb] at isControl
      cases isControl
    refine ⟨?_, by rw [closed_scope, closed_blocks]; exact hdepth, ?_, arranged⟩
    · rw [closed_blocks, closed_function, if_neg notFunction, closed_record, closed_isRecording, hf]
      exact outer
    · intro g hg
      rw [closed_groups, if_neg notFunction] at hg
      obtain ⟨hg, hother⟩ := mem_filter.mp hg
      obtain ⟨f', hf', hlow, hhigh⟩ := hs.groups g hg
      rw [closed_function, if_neg notFunction, closed_blocks]
      refine ⟨f', hf', hlow, ?_⟩
      rw [blocks, groupLimit, if_neg kind.2.2, outer.any_deferred] at hhigh
      split at hhigh
      · exact hhigh
      · next direct =>
        rw [Bool.not_eq_true] at direct
        rw [direct] at outer
        rw [outer.groupLimit_eq_length]
        have : g.1 ≠ rest.length + 1 := by simpa using hother
        omega

theorem step (hs : s.Nested) (h : Step settings s s') : s'.Nested := by
  cases h with
  | idle | load | mark => exact hs.congr rfl rfl rfl rfl rfl rfl
  | header => exact hs.congr (by simp) (by simp) (by simp) (by simp) (by simp) (by simp)
  | write => exact hs.emitted _
  | result => exact (hs.emittedAll _).emitted _
  | declare _ h => exact hs.declares h
  | define _ h => exact (hs.declares h).emitted _
  | begin h =>
    refine begin ?_ h.unmarked
    exact hs.congr rfl rfl rfl rfl rfl rfl
  | loop brace _ _ _ _ inside _ counts _ =>
    have hopened : (s.opened { kind := .loop, token := brace, framed := true }).Nested :=
      hs.opened inside rfl rfl nofun
    cases counts with
    | known => exact hopened.emitted _
    | introduced _ declared => exact (hopened.declares declared).emitted _
  | defer brace inside direct noSwitch => exact hs.defer brace inside direct noSwitch
  | fields record _ outside => exact hs.finishedFields record outside
  | function t brace placeholders outside => exact hs.entered t brace placeholders outside
  | struct t brace generics outside noRecord | enum t brace outside noRecord =>
    exact hs.recorded _ t brace _ outside noRecord
  | structField record outside | enumField record outside => exact hs.setRecord record rfl outside
  | closeStruct blocks kind => exact hs.cleared blocks (.inl kind)
  | closeEnum blocks kind =>
    exact (hs.finishedEnum _).cleared (by simpa using blocks) (.inr kind)
  | closeDeferred blocks kind popped => exact hs.closeDeferred blocks kind popped
  | closeOther t blocks kind popped => exact hs.closed t blocks kind popped

theorem child (s : State) (source : Source) (last : Token) : (s.child source last).Nested :=
  ⟨.empty, rfl, by simp [State.child], .nil _⟩

theorem absorbed (hs : s.Nested) (t : Token) (source : Source) (c : State) (merged : Context) :
    ((s.noted t source).absorbed c merged).Nested := by
  have noted : (s.noted t source).Nested := by
    refine Nested.emitted ?_ _
    exact hs.congr rfl rfl rfl rfl rfl rfl
  exact noted.congr rfl rfl rfl rfl rfl rfl

theorem steps (hs : s.Nested) (h : Steps settings s s') : s'.Nested :=
  Steps.invariant (fun hs h => hs.step h) (fun _ _ => child _ _ _)
    (fun hs _ _ _ _ _ => hs.absorbed _ _ _ _) h hs

end Nested

end State

end Impulse
