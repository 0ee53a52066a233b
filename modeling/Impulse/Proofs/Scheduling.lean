import Impulse.Proofs.Agenda
import Impulse.Proofs.Balance

/-!
# Deferred groups are scheduled block by block

The reader keeps deferred groups in one list, each with the depth of its block, and depths are used again by later
blocks and by other functions. Here the reader is compared with `Agenda`, where every open block keeps its own
groups. Each change of the reader is told to the schedule as events, and the state of the reader always shows the
state of the schedule: what is listed, the group that is being collected, and for every open block of the function
the statements that wait in it.
-/

namespace Impulse

open List

variable {b : Block} {depth : Nat}

/-- Whether statements can be deferred in a block. They are not in records, and not in deferred blocks. -/
def Block.schedules (b : Block) : Bool :=
  b.kind ≠ .struct && b.kind ≠ .enum && b.kind ≠ .deferred

namespace Deferral

variable {d d' : Deferral}

/-- The statements that wait in the open blocks, innermost first. -/
def waiting (d : Deferral) : List Block → List (List Node)
  | [] => []
  | b :: rest =>
    if b.schedules then d.statementsAt (rest.length + 1) :: d.waiting rest else d.waiting rest

theorem waiting_congr (same : ∀ depth ≤ blocks.length, d'.statementsAt depth = d.statementsAt depth) :
    d'.waiting blocks = d.waiting blocks := by
  induction blocks with
  | nil => rfl
  | cons b rest ih =>
    have outer := ih fun depth h => same depth (Nat.le_succ_of_le h)
    rw [waiting, waiting, outer, same (rest.length + 1) (Nat.le_refl _)]

theorem waiting_eq_nil (h : ∀ b ∈ blocks, b.schedules = false) : d.waiting blocks = [] := by
  induction blocks with
  | nil => rfl
  | cons b rest ih =>
    rw [waiting, if_neg (by simp [h b (.head _)]), ih fun b hb => h b (.tail _ hb)]

theorem statementsAt_congr (same : d'.groups = d.groups) (depth : Nat) :
    d'.statementsAt depth = d.statementsAt depth := by
  rw [statementsAt, statementsAt, same]

theorem statementsAt_eq_nil (h : ∀ g ∈ d.groups, g.1 ≠ depth) : d.statementsAt depth = [] := by
  have none : d.groups.filter (·.1 == depth) = [] :=
    filter_eq_nil_iff.mpr fun g hg => by simpa using h g hg
  rw [statementsAt, none]
  rfl

theorem statementsAt_filter (same : d'.groups = d.groups.filter keep)
    (kept : ∀ g ∈ d.groups, g.1 = depth → keep g = true) : d'.statementsAt depth = d.statementsAt depth := by
  have filtered : d'.groups.filter (·.1 == depth) = d.groups.filter (·.1 == depth) := by
    rw [same, filter_filter]
    refine filter_congr fun g hg => ?_
    by_cases here : g.1 = depth
    · simp [here, kept g hg here]
    · simp [here]
  rw [statementsAt, statementsAt, filtered]

theorem statementsAt_finish (h : d.recording = some group) (depth k : Nat) :
    (d.finish depth).statementsAt k = if k = depth then group ++ d.statementsAt depth else d.statementsAt k := by
  cases group with
  | nil =>
    have same : (d.finish depth).groups = d.groups := by rw [finish, h]
    rw [statementsAt_congr same]
    split
    · next here => rw [here, nil_append]
    · rfl
  | cons n ns =>
    have same : (d.finish depth).groups = d.groups ++ [(depth, n :: ns)] := by rw [finish, h]
    rw [statementsAt, same, filter_append]
    by_cases here : k = depth
    · subst here
      simp [statementsAt]
    · simp [here, Ne.symm here, statementsAt]

theorem recording_finish (d : Deferral) (depth : Nat) : (d.finish depth).recording = none := by
  unfold finish
  split <;> rfl

theorem pending_succ (h : bottom ≤ depth + 1) :
    d.pending (depth + 1) bottom = d.statementsAt (depth + 1) ++ d.pending depth bottom := by
  unfold pending
  rw [Nat.succ_sub h, range_succ_eq_map, flatMap_cons, flatMap_map]
  simp [Nat.succ_sub_succ]

end Deferral

namespace Nesting

theorem schedules_of_isControl (h : b.kind.isControl = true) : b.schedules = true := by
  obtain ⟨-, noStruct, noEnum, noDefer⟩ := BlockKind.of_isControl h
  simp [Block.schedules, noStruct, noEnum, noDefer]

theorem not_schedules (h : Nesting blocks none r recording) : ∀ b ∈ blocks, b.schedules = false := by
  cases h with
  | empty => exact forall_mem_nil _
  | @record b r kind =>
    intro b' hb'
    obtain rfl := mem_singleton.mp hb'
    cases r <;> simp [Block.schedules, kind, Record.kind]

theorem schedules_head (h : Nesting blocks (some f) r false) : ∃ b rest, blocks = b :: rest ∧ b.schedules = true := by
  cases h with
  | function _ kind => exact ⟨_, _, rfl, by simp [Block.schedules, kind]⟩
  | control _ kind => exact ⟨_, _, rfl, schedules_of_isControl kind⟩

theorem pending_eq (d : Deferral) (h : Nesting blocks (some f) r false) :
    d.pending blocks.length f.depth = (d.waiting blocks).flatten := by
  generalize hf : some f = g at h
  generalize hr : false = recording at h
  induction h with
  | empty | record => cases hf
  | @function b rest r f outer kind _ depth =>
    cases hf
    have here : b.schedules = true := by simp [Block.schedules, kind]
    rw [Deferral.waiting, if_pos here, Deferral.waiting_eq_nil outer.not_schedules, depth, length_cons]
    simp [Deferral.pending]
  | @control b rest r f recording outer kind _ ih =>
    cases hf
    have bound := outer.depth_le
    rw [Deferral.waiting, if_pos (schedules_of_isControl kind), flatten_cons, ← ih rfl hr,
      length_cons, Deferral.pending_succ (Nat.le_succ_of_le bound)]
  | deferred => cases hr

end Nesting

def Node.isMark : Node → Bool
  | .node _ _ (.result _) => true
  | .node _ _ .blockEnd => true
  | _ => false

/-- Whether a node names no variable, and nothing that was read: the headers, the entries of records, the headers of
functions and the ends of blocks. -/
def Node.isSilent : Node → Bool
  | .node _ _ (.header _) => true
  | .node _ _ (.structName _) => true
  | .node _ _ (.structBody _ _ _) => true
  | .node _ _ (.structEnd _) => true
  | .node _ _ (.enumName _) => true
  | .node _ _ (.enumBody _ _) => true
  | .node _ _ (.enumEnd _) => true
  | .node _ _ (.declare _ _ (.node _ _ (.number _ .absent)) _ _ _) => true
  | .node _ _ (.function _) => true
  | .node _ _ .blockEnd => true
  | _ => false

namespace State

variable {settings : Settings} {s s' s₁ : State}

/-- The schedule of a state. Where a group is being collected, only what waits outside of its block counts, since
nothing is deferred inside. -/
inductive Shows (s : State) : Agenda Node → Prop
  | direct {blocks : List (List (List Node))} (recording : s.deferral.recording = none)
      (waiting : blocks.map List.flatten = s.deferral.waiting s.blocks) :
      Shows s ⟨blocks, none, s.program.map (·.node)⟩
  | collecting {blocks : List (List (List Node))} {inner outer : List Block} {b : Block}
      {group : List Node} (recording : s.deferral.recording = some group)
      (open' : s.blocks = inner ++ b :: outer) (kind : b.kind = .deferred)
      (others : ∀ b ∈ inner, b.kind ≠ .deferred)
      (waiting : blocks.map List.flatten = s.deferral.waiting outer) :
      Shows s ⟨blocks, some (inner.length, group), s.program.map (·.node)⟩

variable (settings) in
/-- What a change tells the schedule. -/
inductive Tells : State → List (Event Node) → State → Prop
  /-- Nodes are listed, perhaps none. The open blocks stay, or only records are open before and after. -/
  | lists {s s' : State} (ns : List Node) (plain : ∀ n ∈ ns, n.isMark = false)
      (program : s'.program = (s.emittedAll ns).program)
      (deferral : s'.deferral = (s.emittedAll ns).deferral)
      (blocks : s'.blocks = s.blocks ∨
        ∀ b ∈ s.blocks ++ s'.blocks, b.kind = .struct ∨ b.kind = .enum) :
      Tells s (ns.map .lists) s'
  /-- A block is open behind a node. -/
  | opens {s s' : State} {b : Block} (n : Node) (plain : n.isMark = false)
      (program : s'.program = (s.emittedAll [n]).program)
      (deferral : s'.deferral = (s.emittedAll [n]).deferral)
      (blocks : s'.blocks = b :: s.blocks) (kind : b.schedules = true) : Tells s [.opens n] s'
  /-- A block is closed. -/
  | closes {s : State} {b : Block} {rest : List Block} (t : Token) (scope : Scope)
      (blocks : s.blocks = b :: rest) (kind : b.schedules = true) :
      Tells s [.closes (.plain t .blockEnd)] (s.closed b rest t scope)
  /-- A function returns. -/
  | returns {s : State} {f : FunctionInfo} {pending : List Node} (t : Token) (value : Node)
      (inside : s.function = some f) (direct : s.deferral.isRecording = false)
      (deferred : settings.feature .deferReturn = false ∧ pending = [] ∨
        settings.feature .deferReturn = true ∧ pending = s.deferral.pending s.depth f.depth)
      (noSwitch : s.inSwitch = false) :
      Tells s [.returns (.returned t value)] ((s.emittedAll pending).emitted (.returned t value))
  /-- A deferred block is opened. -/
  | defers {s s' : State} {b : Block} (inside : s.function ≠ none)
      (direct : s.deferral.isRecording = false) (program : s'.program = s.program)
      (deferral : s'.deferral = s.deferral.start) (blocks : s'.blocks = b :: s.blocks)
      (kind : b.kind = .deferred) : Tells s [.defers] s'
  /-- A deferred block is closed. -/
  | collects {s s' : State} {b : Block} (program : s'.program = s.program)
      (deferral : s'.deferral = s.deferral.finish s'.blocks.length)
      (blocks : s.blocks = b :: s'.blocks) (kind : b.kind = .deferred) : Tells s [.collects] s'

theorem emittedAll_congr (file : s'.file = s.file) (program : s'.program = s.program)
    (deferral : s'.deferral = s.deferral) (ns : List Node) :
    (s'.emittedAll ns).program = (s.emittedAll ns).program ∧
      (s'.emittedAll ns).deferral = (s.emittedAll ns).deferral := by
  cases recording : s.deferral.recording with
  | none =>
    have recording' : s'.deferral.recording = none := deferral ▸ recording
    rw [emittedAll_direct ns recording, emittedAll_direct ns recording']
    exact ⟨by rw [program, file], deferral⟩
  | some group =>
    have recording' : s'.deferral.recording = some group := deferral ▸ recording
    rw [emittedAll_deferred ns recording, emittedAll_deferred ns recording']
    exact ⟨program, by rw [deferral]⟩

namespace Tells

theorem of_emitted (ns : List Node) (plain : ∀ n ∈ ns, n.isMark = false)
    (listed : s'.program = (s₁.emittedAll ns).program) (deferred : s'.deferral = (s₁.emittedAll ns).deferral)
    (file : s₁.file = s.file) (program : s₁.program = s.program) (deferral : s₁.deferral = s.deferral)
    (blocks : s'.blocks = s.blocks ∨ ∀ b ∈ s.blocks ++ s'.blocks, b.kind = .struct ∨ b.kind = .enum) :
    Tells settings s (ns.map .lists) s' := by
  obtain ⟨sameProgram, sameDeferral⟩ := emittedAll_congr file program deferral ns
  exact .lists ns plain (listed.trans sameProgram) (deferred.trans sameDeferral) blocks

theorem quiet (program : s'.program = s.program) (deferral : s'.deferral = s.deferral)
    (blocks : s'.blocks = s.blocks) : Tells settings s [] s' :=
  .lists [] (forall_mem_nil _) program deferral (.inl blocks)

theorem of_opened (n : Node) (plain : n.isMark = false) (listed : s'.program = (s₁.emittedAll [n]).program)
    (deferred : s'.deferral = (s₁.emittedAll [n]).deferral) (file : s₁.file = s.file)
    (program : s₁.program = s.program) (deferral : s₁.deferral = s.deferral) (blocks : s'.blocks = b :: s.blocks)
    (kind : b.schedules = true) : Tells settings s [.opens n] s' := by
  obtain ⟨sameProgram, sameDeferral⟩ := emittedAll_congr file program deferral [n]
  exact .opens n plain (listed.trans sameProgram) (deferred.trans sameDeferral) blocks kind

end Tells

theorem Writes.isMark (h : s.Writes settings n) : n.isMark = false := by
  cases h <;> rfl

theorem Opens.isMark (h : s.Opens settings n b) : n.isMark = false := by
  cases h <;> rfl

theorem Opens.schedules (h : s.Opens settings n b) : b.schedules = true := by
  cases h <;> rfl

theorem Declares.keeps_listed (h : s.Declares x s') : s'.file = s.file ∧
    s'.program = s.program ∧ s'.deferral = s.deferral ∧ s'.blocks = s.blocks := by
  cases h <;> exact ⟨rfl, rfl, rfl, rfl⟩

/-- What was read and tested for the node of an event, when the state changed from `s` to `s'`. -/
inductive Told (settings : Settings) (s s' : State) : Event Node → Prop
  | silent {e : Event Node} (h : ∀ n, e.node? = some n → n.isSilent = true) : Told settings s s' e
  | write {n : Node} (h : s.Writes settings n) : Told settings s s' (.lists n)
  | define (t : Token) (name : String) (const global : Bool) {toks : List Token} {written ty : Ty}
      {value : Node} (typed : TypeExpr.ofTokens (s.view settings) false toks = .ok written)
      (initial : (s.view settings).Initial written ty value) :
      Told settings s s' (.lists (.declaration t name ty value const global false))
  | result (t : Token) {f : FunctionInfo} {value : Node} (inside : s.function = some f)
      (h : (s.view settings).Results f value) : Told settings s s' (.returns (.returned t value))
  | begin {n : Node} {b : Block} (h : s.Opens settings n b) (scope : s'.scope = (s.opened b).scope)
      (context : s'.context = s.context) (follows : n.isAlternative = true → s.afterBranch = true) :
      Told settings s s' (.opens n)
  | loop (brace t opened : Token) (counter : String) (step : Impulse.Step) {toks : List Token}
      {init : Node} {cond : List Node} {s₁ : State} (inside : s.function ≠ none)
      (counts : (s.opened { kind := .loop, token := brace, framed := true }).Counts init counter s₁)
      (read : Infer.Gives (s₁.view settings) (Infer.condition opened toks) cond)
      (counted : step ≠ .stay → counter ≠ "" ∧
        ∃ x, s₁.context.resolvePath? s₁.scope counter = some x ∧ x.ty.isNumeric = true)
      (scope : s'.scope = s₁.scope) (context : s'.context = s₁.context) :
      Told settings s s' (.opens (.plain t (.loop init counter cond step)))

theorem Told.lists {ns : List Node} (h : ∀ n ∈ ns, n.isSilent = true) :
    ∀ e ∈ ns.map Event.lists, Told settings s s' e := by
  intro e he
  obtain ⟨n, hn, rfl⟩ := mem_map.mp he
  refine .silent fun m hm => ?_
  cases hm
  exact h n hn

/-- Every change tells the schedule something, and what it tells was tested. -/
theorem Tells.of_step (nested : s.Nested) (h : Step settings s s') :
    ∃ es, Tells settings s es s' ∧ ∀ e ∈ es, Told settings s s' e := by
  have one : ∀ {e : Event Node}, Told settings s s' e → ∀ e' ∈ [e], Told settings s s' e' :=
    fun told e' he' => mem_singleton.mp he' ▸ told
  cases h with
  | idle | load | mark | structField | enumField => exact ⟨_, .quiet rfl rfl rfl, forall_mem_nil _⟩
  | header t path =>
    refine ⟨_, .of_emitted [.plain t (.header path)] ?_ rfl rfl rfl rfl rfl (.inl (by simp)), .lists ?_⟩
    · simp [Node.plain, Node.isMark]
    · simp [Node.plain, Node.isSilent]
  | write h =>
    exact ⟨_, .lists [_] (by simpa using h.isMark) rfl rfl (.inl (by simp)), one (.write h)⟩
  | result t inside direct noSwitch h deferred =>
    exact ⟨_, .returns t _ inside direct deferred noSwitch, one (.result t inside h)⟩
  | declare _ h =>
    obtain ⟨-, program, deferral, blocks⟩ := h.keeps_listed
    exact ⟨_, .quiet program deferral blocks, forall_mem_nil _⟩
  | @define s₁ t x _ _ value h _ _ typed initial =>
    obtain ⟨file, program, deferral, blocks⟩ := h.keeps_listed
    refine ⟨_, .of_emitted [.declaration t x.name x.ty value x.const s.function.isNone false]
      ?_ rfl rfl file program deferral (.inl (by simpa using blocks)), one (.define t _ _ _ typed initial)⟩
    simp [Node.declaration, Node.isMark]
  | begin h follows =>
    refine ⟨_, .of_opened _ h.isMark rfl rfl rfl rfl rfl (by simp [State.opened]) h.schedules, one (.begin h ?_ ?_ follows)⟩
    · simp [State.opened]
    · simp [State.opened]
  | @loop s₁ brace t opened counter step _ init cond inside _ counts read counted =>
    have kept : s₁.file = s.file ∧ s₁.program = s.program ∧ s₁.deferral = s.deferral ∧
        s₁.blocks = { kind := .loop, token := brace, framed := true } :: s.blocks := by
      cases counts with
      | known => exact ⟨rfl, rfl, rfl, rfl⟩
      | introduced _ declared => exact declared.keeps_listed
    obtain ⟨file, program, deferral, blocks⟩ := kept
    refine ⟨_, .of_opened (.plain t (.loop init counter cond step)) rfl rfl rfl file program deferral
      (by simpa using blocks) rfl,
      one (.loop brace t opened counter step inside counts read counted ?_ ?_)⟩
    · simp
    · simp
  | defer brace inside direct =>
    refine ⟨_, .defers inside direct rfl rfl rfl rfl, one (.silent ?_)⟩
    intro n hn
    cases hn
  | @fields d =>
    refine ⟨_, .of_emitted [.plain d.token (.structBody d.name d.generics d.fields),
      .plain d.token (.structEnd d.name)] ?_ rfl rfl rfl rfl rfl
      (.inl (by simp [State.finishedFields])), .lists ?_⟩
    · simp [Node.plain, Node.isMark]
    · simp [Node.plain, Node.isSilent]
  | @function t brace sig =>
    refine ⟨_, .of_opened (b := { kind := .function, token := brace, framed := true })
      (.functionOf t sig) rfl rfl rfl rfl rfl rfl (by simp [State.entered, State.opened]) rfl,
      one (.silent ?_)⟩
    intro n hn
    cases hn
    rfl
  | struct _ _ _ outside noRecord | enum _ _ outside noRecord =>
    have bottom := nested.nesting
    rw [outside, noRecord] at bottom
    refine ⟨_, .of_emitted [_] ?_ rfl rfl rfl rfl rfl
      (.inr (by simp [State.recorded, State.opened, bottom.blocks_eq_nil.1, Record.kind])), .lists ?_⟩
    · simp [Node.plain, Node.isMark]
    · simp [Node.plain, Node.isSilent]
  | closeStruct blocks kind =>
    obtain ⟨rfl, -⟩ := nested.close_record blocks (.inl kind)
    exact ⟨_, .lists [] (forall_mem_nil _) rfl rfl (.inr (by simp [blocks, kind])),
      forall_mem_nil _⟩
  | @closeEnum b rest d blocks kind =>
    obtain ⟨rfl, -⟩ := nested.close_record blocks (.inr kind)
    refine ⟨_, .of_emitted [.plain d.token (.enumBody d.name d.fields),
      .declaration d.token (d.name ++ ".field_count") .int
        (.numeral d.token (toString d.fields.length) .int) true true true,
      .plain d.token (.enumEnd d.name)] ?_ rfl rfl rfl rfl rfl (.inr (by simp [blocks, kind])), .lists ?_⟩
    · simp [Node.plain, Node.declaration, Node.isMark]
    · simp [Node.plain, Node.declaration, Node.numeral, Node.isSilent]
  | closeDeferred blocks kind =>
    refine ⟨_, .collects rfl rfl blocks kind, one (.silent ?_)⟩
    intro n hn
    cases hn
  | closeOther t blocks kind =>
    refine ⟨_, .closes t _ blocks (by simpa [Block.schedules, and_assoc] using kind), one (.silent ?_)⟩
    intro n hn
    cases hn
    rfl

theorem Nested.statementsAt_eq_nil (nested : s.Nested)
    (h : groupLimit s.blocks < depth) : s.deferral.statementsAt depth = [] := by
  refine Deferral.statementsAt_eq_nil fun g hg here => ?_
  obtain ⟨f, -, -, bound⟩ := nested.groups g hg
  omega

theorem emittedAll_concat (ns : List Node) (n : Node) : (s.emittedAll ns).emitted n = s.emittedAll (ns ++ [n]) := by
  induction ns generalizing s with
  | nil => rfl
  | cons m ns ih => exact ih

theorem map_node_append (p : Program) (ns : List Node) (file : String) :
    (p ++ ns.map (Entry.of · file)).map (·.node) = p.map (·.node) ++ ns := by
  simp [Entry.of, Function.comp_def]

section Closed

variable (s) (b : Block) (rest : List Block) (t : Token) (scope : Scope)

theorem closed_listed : ∃ s₁ : State, s₁.program = s.program ∧ s₁.deferral = s.deferral.without (rest.length + 1) ∧
    (s.closed b rest t scope).program = (s₁.emittedAll
      (s.deferral.statementsAt (rest.length + 1) ++ [.plain t .blockEnd])).program ∧
    (s.closed b rest t scope).deferral.recording = (s₁.emittedAll
      (s.deferral.statementsAt (rest.length + 1) ++ [.plain t .blockEnd])).deferral.recording := by
  refine ⟨{ s with
    blocks := rest
    afterBranch := b.kind = .branch
    deferral := s.deferral.without (rest.length + 1) }, rfl, rfl, ?_⟩
  unfold closed
  rw [← emittedAll_concat]
  split <;> exact ⟨rfl, rfl⟩

theorem closed_waiting (h : outer.length ≤ rest.length) :
    (s.closed b rest t scope).deferral.waiting outer = s.deferral.waiting outer := by
  refine Deferral.waiting_congr fun depth hdepth => ?_
  have groups := s.closed_groups b rest t scope
  split at groups
  · refine Deferral.statementsAt_filter (groups.trans filter_filter) fun g _ here => ?_
    simp only [Bool.and_eq_true, bne_iff_ne, decide_eq_true_eq]
    omega
  · refine Deferral.statementsAt_filter groups fun g _ here => ?_
    simp only [bne_iff_ne]
    omega

end Closed

theorem groupLimit_cons_le (direct : b.kind ≠ .deferred) (inside : rest.any (fun b => b.kind = .deferred) = true) :
    groupLimit (b :: rest) ≤ rest.length := by
  rw [groupLimit, if_neg direct, if_pos inside]
  exact groupLimit_le_length rest

namespace Shows

theorem lists (shows : s.Shows a) (program : s'.program = (s.emittedAll ns).program)
    (deferral : s'.deferral = (s.emittedAll ns).deferral)
    (blocks : s'.blocks = s.blocks ∨ ∀ b ∈ s.blocks ++ s'.blocks, b.kind = .struct ∨ b.kind = .enum) :
    ∃ a', a.run? replay (ns.map .lists) = some a' ∧ s'.Shows a' := by
  cases shows with
  | direct recording waiting =>
    rw [emittedAll_direct ns recording] at program deferral
    have listed : s'.program.map (·.node) = s.program.map (·.node) ++ ns := by
      rw [program, map_node_append]
    refine ⟨_, Agenda.run?_lists_direct .., ?_⟩
    rw [← listed]
    refine .direct (deferral ▸ recording) ?_
    rw [waiting, deferral]
    rcases blocks with same | records
    · rw [same]
    · have nowhere : ∀ b ∈ s.blocks ++ s'.blocks, b.schedules = false := by
        intro b hb
        rcases records b hb with kind | kind <;> simp [Block.schedules, kind]
      rw [Deferral.waiting_eq_nil fun b hb => nowhere b (mem_append_left _ hb),
        Deferral.waiting_eq_nil fun b hb => nowhere b (mem_append_right _ hb)]
  | @collecting _ inner outer b group recording open' kind others waiting =>
    rw [emittedAll_deferred ns recording] at program deferral
    refine ⟨_, Agenda.run?_lists_group .., ?_⟩
    rcases blocks with same | records
    · rw [← program]
      refine .collecting (by rw [deferral]) (same.trans open') kind others ?_
      rw [waiting, deferral]
      exact Deferral.waiting_congr fun depth _ => Deferral.statementsAt_congr rfl depth
    · have record := records b (by simp [open'])
      rw [kind] at record
      simp at record

variable (nested : s.Nested)
include nested

variable (shows : s.Shows a)
include shows

theorem opens (program : s'.program = (s.emittedAll [n]).program) (deferral : s'.deferral = (s.emittedAll [n]).deferral)
    (blocks : s'.blocks = b :: s.blocks) (kind : b.schedules = true) :
    ∃ a', a.run? replay [.opens n] = some a' ∧ s'.Shows a' := by
  cases shows with
  | direct recording waiting =>
    rw [emittedAll_direct [n] recording] at program deferral
    have listed : s'.program.map (·.node) = s.program.map (·.node) ++ [n] := by
      rw [program, map_node_append]
    refine ⟨_, rfl, ?_⟩
    rw [← listed]
    refine .direct (deferral ▸ recording) ?_
    have direct := nested.nesting
    rw [Deferral.isRecording, recording] at direct
    have empty : s.deferral.statementsAt (s.blocks.length + 1) = [] := by
      refine nested.statementsAt_eq_nil ?_
      rw [direct.groupLimit_eq_length]
      exact Nat.lt_succ_self _
    rw [blocks, Deferral.waiting, if_pos kind, deferral, empty, ← waiting]
    rfl
  | @collecting _ inner outer b' group recording open' kind' others waiting =>
    rw [emittedAll_deferred [n] recording] at program deferral
    have open'' : s'.blocks = (b :: inner) ++ b' :: outer := by
      rw [blocks, open']
      rfl
    refine ⟨_, rfl, ?_⟩
    rw [← program]
    refine .collecting (by rw [deferral]) open'' kind' ?_ ?_
    · intro b₁ hb₁
      rcases mem_cons.mp hb₁ with rfl | old
      · simp only [Block.schedules, Bool.and_eq_true, decide_eq_true_eq] at kind
        exact kind.2
      · exact others b₁ old
    · rw [waiting, deferral]
      exact Deferral.waiting_congr fun depth _ => Deferral.statementsAt_congr rfl depth

theorem closes (t : Token) (scope : Scope) (blocks : s.blocks = b :: rest) (kind : b.schedules = true) :
    ∃ a', a.run? replay [.closes (.plain t .blockEnd)] = some a' ∧ (s.closed b rest t scope).Shows a' := by
  obtain ⟨s₁, sameProgram, sameDeferral, program, deferral⟩ := s.closed_listed b rest t scope
  cases shows with
  | direct recording waiting =>
    have recording₁ : s₁.deferral.recording = none := by rw [sameDeferral]; exact recording
    rw [emittedAll_direct _ recording₁] at program deferral
    rw [blocks, Deferral.waiting, if_pos kind] at waiting
    obtain ⟨groups, outer, rfl, here, further⟩ := map_eq_cons_iff.mp waiting
    have listed : (s.closed b rest t scope).program.map (·.node)
        = s.program.map (·.node) ++ (groups.flatten ++ [.plain t .blockEnd]) := by
      rw [program, map_node_append, sameProgram, here]
    refine ⟨_, rfl, ?_⟩
    rw [← listed]
    refine .direct (deferral.trans recording₁) ?_
    rw [closed_blocks, closed_waiting _ _ _ _ _ (Nat.le_refl _), further]
  | @collecting blocks' inner outer b' group recording open' kind' others waiting =>
    have recording₁ : s₁.deferral.recording = some group := by rw [sameDeferral]; exact recording
    rw [emittedAll_deferred _ recording₁] at program deferral
    -- The block that is closed was opened inside of the deferred one, and nothing waits in it.
    obtain ⟨inner', rfl, hrest⟩ : ∃ inner', inner = b :: inner' ∧ rest = inner' ++ b' :: outer := by
      cases inner with
      | nil =>
        obtain ⟨rfl, -⟩ := List.cons.inj (blocks.symm.trans open')
        simp [Block.schedules, kind'] at kind
      | cons b₁ inner =>
        obtain ⟨rfl, hrest⟩ := List.cons.inj (blocks.symm.trans open')
        exact ⟨inner, rfl, hrest⟩
    have empty : s.deferral.statementsAt (rest.length + 1) = [] := by
      refine nested.statementsAt_eq_nil ?_
      rw [blocks]
      exact Nat.lt_succ_of_le (groupLimit_cons_le (others b (.head _)) (by simp [hrest, kind']))
    have waiting' : (s.closed b rest t scope).deferral.waiting outer = s.deferral.waiting outer :=
      closed_waiting s b rest t scope (by simp [hrest]; omega)
    rw [empty, nil_append] at deferral
    refine ⟨_, rfl, ?_⟩
    rw [← sameProgram, ← program]
    exact .collecting deferral ((closed_blocks ..).trans hrest) kind'
      (fun b hb => others b (.tail _ hb)) (waiting.trans waiting'.symm)

theorem returns
    (n : Node) (inside : s.function = some f) (direct : s.deferral.isRecording = false)
    (deferred : replay = false ∧ pending = [] ∨ replay = true ∧ pending = s.deferral.pending s.depth f.depth) :
    ∃ a', a.run? replay [.returns n] = some a' ∧ ((s.emittedAll pending).emitted n).Shows a' := by
  have nesting := nested.nesting
  rw [inside, direct] at nesting
  cases shows with
  | @direct blocks recording waiting =>
    have all : pending = if replay then blocks.flatten.flatten else [] := by
      rcases deferred with ⟨rfl, rfl⟩ | ⟨rfl, rfl⟩
      · rfl
      · rw [if_pos rfl, flatten_flatten, waiting]
        exact nesting.pending_eq _
    refine ⟨_, rfl, ?_⟩
    rw [emittedAll_concat, emittedAll_direct _ recording, ← all, ← map_node_append]
    exact .direct recording waiting
  | collecting recording =>
    simp [Deferral.isRecording, recording] at direct

theorem defers (inside : s.function ≠ none) (direct : s.deferral.isRecording = false) (program : s'.program = s.program)
    (deferral : s'.deferral = s.deferral.start) (blocks : s'.blocks = b :: s.blocks)
    (kind : b.kind = .deferred) : ∃ a', a.run? replay [.defers] = some a' ∧ s'.Shows a' := by
  obtain ⟨f, hf⟩ := Option.ne_none_iff_exists'.mp inside
  have nesting := nested.nesting
  rw [hf, direct] at nesting
  cases shows with
  | @direct groups recording waiting =>
    obtain ⟨b', rest, hblocks, holds⟩ := nesting.schedules_head
    have waiting' := waiting
    rw [hblocks, Deferral.waiting, if_pos holds] at waiting'
    obtain ⟨first, outer, rfl, -⟩ := map_eq_cons_iff.mp waiting'
    refine ⟨_, rfl, ?_⟩
    rw [← program]
    have open' : s'.blocks = [] ++ b :: s.blocks := blocks
    refine .collecting (by rw [deferral]; rfl) open' kind (forall_mem_nil _) ?_
    rw [waiting, deferral]
    exact Deferral.waiting_congr fun depth _ => Deferral.statementsAt_congr rfl depth
  | collecting recording =>
    simp [Deferral.isRecording, recording] at direct

theorem collects (program : s'.program = s.program)
    (deferral : s'.deferral = s.deferral.finish s'.blocks.length) (blocks : s.blocks = b :: s'.blocks)
    (kind : b.kind = .deferred) : ∃ a', a.run? replay [.collects] = some a' ∧ s'.Shows a' := by
  have nesting := nested.nesting
  rw [blocks] at nesting
  obtain ⟨f, -, outside, -⟩ := nesting.close_deferred kind
  cases shows with
  | direct recording =>
    have noGroup := nested.nesting.any_deferred
    rw [blocks, Deferral.isRecording, recording] at noGroup
    simp [kind] at noGroup
  | @collecting groups inner outer b' group recording open' kind' others waiting =>
    obtain rfl : inner = [] := by
      cases inner with
      | nil => rfl
      | cons b₁ inner =>
        obtain ⟨rfl, -⟩ := List.cons.inj (blocks.symm.trans open')
        exact absurd kind (others b (.head _))
    obtain ⟨-, rfl⟩ := List.cons.inj (blocks.symm.trans open')
    obtain ⟨b₁, rest, hblocks, holds⟩ := outside.schedules_head
    have waiting' := waiting
    rw [hblocks, Deferral.waiting, if_pos holds] at waiting'
    obtain ⟨first, further, rfl, here, others⟩ := map_eq_cons_iff.mp waiting'
    refine ⟨_, rfl, ?_⟩
    rw [← program]
    refine .direct ?_ ?_
    · rw [deferral]
      exact Deferral.recording_finish _ _
    · have innermost := Deferral.statementsAt_finish recording s'.blocks.length
      rw [hblocks, length_cons] at innermost
      rw [deferral, hblocks, length_cons, Deferral.waiting, if_pos holds, innermost, if_pos rfl,
        map_cons, flatten_cons, here, others]
      congr 1
      refine (Deferral.waiting_congr fun depth bound => ?_).symm
      rw [innermost, if_neg (by omega)]

end Shows

theorem Tells.shows (nested : s.Nested) (h : Tells settings s es s')
    (shows : s.Shows a) : ∃ a', a.run? (settings.feature .deferReturn) es = some a' ∧ s'.Shows a' := by
  cases h with
  | lists ns _ program deferral blocks => exact shows.lists program deferral blocks
  | opens n _ program deferral blocks kind => exact shows.opens nested program deferral blocks kind
  | closes t scope blocks kind => exact shows.closes nested t scope blocks kind
  | returns t value inside direct deferred => exact shows.returns nested _ inside direct deferred
  | defers inside direct program deferral blocks kind =>
    exact shows.defers nested inside direct program deferral blocks kind
  | collects program deferral blocks kind => exact shows.collects nested program deferral blocks kind

variable (settings) in
/-- The events of a sequence of changes. An imported file tells its own events behind its import. -/
inductive Logs : State → List (Event Node) → State → Prop
  | refl (s : State) : Logs s [] s
  | step {s s₁ s₂ : State} {log es : List (Event Node)} (h : Logs s log s₁)
      (change : Step settings s₁ s₂) (tells : Tells settings s₁ es s₂) : Logs s (log ++ es) s₂
  | imports {s s₁ c : State} {t last : Token} {source : Source} {merged : Context}
      {log inner : List (Event Node)} (h : Logs s log s₁) (bottom : s₁.blocks = [])
      (isNew : (s₁.context.markImported source.key).1 = true)
      (inside : Logs ((s₁.noted t source).child source last) inner c) (done : c.blocks = [])
      (read : c.buffer = [])
      (taken : (s₁.noted t source).context.absorb c.context = (merged, none)) :
      Logs s (log ++ .lists (.plain t (.source source.path)) :: inner)
        ((s₁.noted t source).absorbed c merged)

theorem Logs.steps (h : Logs settings s log s') : Steps settings s s' := by
  induction h with
  | refl => exact .refl _
  | step _ change _ ih => exact .step ih change
  | imports _ bottom isNew _ done read taken ih ihInside =>
    exact .imports ih bottom isNew ihInside done read taken

theorem Steps.logs (nested : s.Nested) (h : Steps settings s s') : ∃ log, Logs settings s log s' := by
  induction h with
  | refl => exact ⟨[], .refl _⟩
  | step h change ih =>
    obtain ⟨log, logs⟩ := ih nested
    obtain ⟨es, tells, -⟩ := Tells.of_step (nested.steps h) change
    exact ⟨_, .step logs change tells⟩
  | imports _ bottom isNew _ done read taken ih ihInside =>
    obtain ⟨log, logs⟩ := ih nested
    obtain ⟨inner, inside⟩ := ihInside (.child ..)
    exact ⟨_, .imports logs bottom isNew inside done read taken⟩

theorem Shows.of_blocks_nil (shows : s.Shows a) (bottom : s.blocks = []) :
    s.deferral.recording = none ∧ a = ⟨[], none, s.program.map (·.node)⟩ := by
  cases shows with
  | direct recording waiting =>
    rw [bottom] at waiting
    obtain rfl := map_eq_nil_iff.mp waiting
    exact ⟨recording, rfl⟩
  | collecting _ open' =>
    rw [bottom] at open'
    simp at open'

theorem Shows.of_empty (recording : s.deferral.recording = none) (bottom : s.blocks = []) :
    s.Shows ⟨[], none, s.program.map (·.node)⟩ :=
  .direct recording (by rw [bottom]; rfl)

theorem Logs.shows (nested : s.Nested) (h : Logs settings s log s')
    (shows : s.Shows a) : ∃ a', a.run? (settings.feature .deferReturn) log = some a' ∧ s'.Shows a' := by
  induction h generalizing a with
  | refl => exact ⟨a, rfl, shows⟩
  | step h change tells ih =>
    obtain ⟨a₁, before, shows₁⟩ := ih nested shows
    obtain ⟨a₂, after, shows₂⟩ := tells.shows (nested.steps h.steps) shows₁
    exact ⟨a₂, by rw [Agenda.run?_append, before, Option.bind_some, after], shows₂⟩
  | @imports s s₁ c t last source merged log inner h bottom _ inside done _ _ ih ihInside =>
    obtain ⟨a₁, before, shows₁⟩ := ih nested shows
    obtain ⟨recording, rfl⟩ := shows₁.of_blocks_nil bottom
    have start : ((s₁.noted t source).child source last).Shows {} :=
      .of_empty (s := (s₁.noted t source).child source last) rfl rfl
    obtain ⟨a₂, during, shows₂⟩ := ihInside (.child ..) start
    obtain ⟨-, rfl⟩ := shows₂.of_blocks_nil done
    -- The imported file lists its nodes behind those that were listed before.
    have behind : Agenda.run? (settings.feature .deferReturn) _ inner = _ := Agenda.run?_behind
      (s₁.program.map (·.node) ++ [.plain t (.source source.path)]) {} inner
    rw [during] at behind
    have listed : ((s₁.noted t source).absorbed c merged).program.map (·.node)
        = (s₁.program.map (·.node) ++ [.plain t (.source source.path)]) ++ c.program.map (·.node) := by
      rw [noted_direct recording]
      simp [State.absorbed, Entry.of]
    refine ⟨⟨[], none, _⟩, ?_, .of_empty ?_ ?_⟩
    · rw [Agenda.run?_append, before, Option.bind_some, Agenda.run?, Agenda.after?, listed]
      simpa [Agenda.behind] using behind
    · rw [noted_direct recording]
      exact recording
    · rw [noted_direct recording]
      exact bottom

end State

end Impulse
