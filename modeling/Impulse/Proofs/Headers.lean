import Impulse.Proofs.Brackets
import Impulse.Proofs.KnownTypes
import Impulse.Proofs.Nesting

/-!
# Open blocks and the headers that opened them

Every open block has a node in the program that opened it, and these nodes are what remains on the stack when
the program is read as in `Impulse.Proofs.Brackets`. While a group is deferred, its nodes are read with a stack
of their own. A group that is complete leaves its stack empty, so it can be put any number of times wherever a
function is open and no switch is innermost.
-/

namespace Impulse

open List

variable {n : Node} {s' : State}
  (k : Stacks)

def Node.isFunction : Node → Bool
  | .node _ _ (.function _) => true
  | _ => false

def Node.isSwitch : Node → Bool
  | .node _ _ (.switch _) => true
  | _ => false

def Node.isTarget : Node → Bool
  | .node _ _ (.loop _ _ _ _) => true
  | .node _ _ (.iterate _ _ _ _) => true
  | .node _ _ (.switch _) => true
  | _ => false

def BlockKind.isTarget : BlockKind → Bool
  | .loop | .iterate | .switch => true
  | _ => false

/-- Whether a function with the result type `ret` may give back a value: none if it has no result, and one
that fits otherwise. -/
def Ty.givesBack (ret : Ty) (value : Node) : Bool :=
  if ret.isVoid then value.isAbsent else !value.isAbsent && ret.accepts value

/-- Whether a node fits to the openers around it: a return to the innermost function, and a case to the switch
it stands in. -/
def Node.fitsIn (stack : List Node) : Node → Bool
  | .node _ _ (.result value) =>
    match stack.find? Node.isFunction with
    | some (.node _ _ (.function sig)) => sig.ret.givesBack value
    | _ => false
  | .node _ _ (.arm values _ _) =>
    match stack with
    | .node _ _ (.switch subject) :: _ => values.all subject.ty.resolved.accepts
    | _ => false
  | _ => true

def Node.isArm : Node → Bool
  | .node _ _ (.arm _ _ _) => true
  | _ => false

def Node.isBare : Node → Bool
  | .node _ _ .blockStart => true
  | _ => false

def Node.isContinue : Node → Bool
  | .node _ _ .again => true
  | _ => false

def Node.isBreak : Node → Bool
  | .node _ _ .leave => true
  | _ => false

/-- A node may stand behind the openers `stack`: it fits to them if types are strict, nothing but cases and bare
blocks stands directly in a switch, and a jump has something to leave in its function. -/
structure Node.Placed (strict : Prop) (stack : List Node) (n : Node) : Prop where
  typed : strict → n.fitsIn stack = true
  inSwitch : stack.head?.any Node.isSwitch = true →
    (n.isArm || n.isBare || Program.nodeCloses n) = true
  target : (n.isContinue || n.isBreak) = true → (stack.takeWhile fun m => !m.isFunction).any Node.isTarget = true ∧
    stack.any Node.isFunction = true

theorem Node.Placed.plain
    (typed : strict → n.fitsIn stack = true) (noSwitch : stack.head?.any Node.isSwitch = false)
    (noJump : (n.isContinue || n.isBreak) = false) : n.Placed strict stack :=
  ⟨typed, fun inside => absurd (noSwitch.symm.trans inside) nofun,
    fun jump => absurd (noJump.symm.trans jump) nofun⟩

/-- A node that neither opens nor closes anything, is no jump and fits to all openers. -/
structure Node.Inert (n : Node) : Prop where
  opens : Program.nodeOpens n = false
  closes : Program.nodeCloses n = false
  fits : ∀ stack, n.fitsIn stack = true
  noJump : (n.isContinue || n.isBreak) = false

theorem Node.Inert.read (h : n.Inert) (stack : List Node) : Program.read stack n = some stack :=
  Program.read_of_stays h.opens h.closes stack

/-- Deferred statements are listed in functions, and not directly in a switch. -/
structure Ready (base : List Node) : Prop where
  function : base.any Node.isFunction = true
  noSwitch : base.head?.any Node.isSwitch = false

theorem Ready.single (h : f.isFunction = true) : Ready [f] := by
  unfold Node.isFunction at h
  split at h
  · exact ⟨rfl, rfl⟩
  · cases h

/-- The stack of the program and, while a group is deferred, the stack of the group. -/
structure Stacks where
  program : List Node
  group : Option (List Node) := none

namespace Stacks

def top (k : Stacks) : List Node :=
  k.group.getD k.program

def set (k : Stacks) (stack : List Node) : Stacks :=
  match k.group with
  | none => ⟨stack, none⟩
  | some _ => ⟨k.program, some stack⟩

/-- What a stack may lie on: that of a group on any place for deferred statements, that of the program on
nothing. -/
def Below (k : Stacks) (base : List Node) : Prop :=
  if k.group.isSome then Ready base else base = []

@[simp] theorem top_set (stack : List Node) : (k.set stack).top = stack := by
  obtain ⟨program, _ | group⟩ := k <;> rfl

@[simp] theorem set_set (stack stack' : List Node) : (k.set stack).set stack' = k.set stack' := by
  obtain ⟨program, _ | group⟩ := k <;> rfl

@[simp] theorem set_top : k.set k.top = k := by
  obtain ⟨program, _ | group⟩ := k <;> rfl

end Stacks

/-- The node `n` opened the block `b`. The header of a function knows its result type, and that of a switch
the type its cases are checked against. Only switches have the headers of switches, what a jump can leave
has the header of such a block, and a branch that others can go on behind has one with a condition. -/
structure Block.HeadedBy (f : Option FunctionInfo) (b : Block) (n : Node) : Prop where
  opens : Program.nodeOpens n = true
  ends : ∀ t, Program.pairs n (.plain t .blockEnd) = true
  function : b.kind = .function → ∃ t sig g, n = .functionOf t sig ∧ f = some g ∧ g.ret = sig.ret
  control : b.kind ≠ .function → n.isFunction = false
  switch : b.kind = .switch → ∃ t subject, n = .plain t (.switch subject) ∧
    b.value = subject.ty.resolved
  isSwitch : n.isSwitch = true → b.kind = .switch
  isTarget : b.kind.isTarget = true → n.isTarget = true
  conditional : b.kind = .branch → n.isConditional = true

/-- The nodes on the stacks opened the open blocks, innermost first. A deferred block has no header, and begins
with an empty stack of its own; the header of a struct is gone when its fields are complete. -/
inductive Headed (r : Option Record) (f : Option FunctionInfo) : List Block → Stacks → Prop
  | empty : Headed r f [] ⟨[], none⟩
  | openStruct {b : Block} {d : StructDraft} (t : Token) (kind : b.kind = .struct)
      (record : r = some (.struct d)) (openFields : d.fieldsOpen = true) :
      Headed r f [b] ⟨[.plain t (.structName d.name)], none⟩
  | struct {b : Block} {d : StructDraft} (kind : b.kind = .struct) (record : r = some (.struct d))
      (complete : d.fieldsOpen = false) : Headed r f [b] ⟨[], none⟩
  | enum {b : Block} {d : EnumDraft} (t : Token) (kind : b.kind = .enum)
      (record : r = some (.enum d)) : Headed r f [b] ⟨[.plain t (.enumName d.name)], none⟩
  | block {b : Block} {n : Node} {blocks : List Block} {k : Stacks} (outer : Headed r f blocks k)
      (kind : b.kind = .function ∨ b.kind.isControl = true) (head : b.HeadedBy f n) :
      Headed r f (b :: blocks) (k.set (n :: k.top))
  | deferred {b : Block} {blocks : List Block} {stack : List Node}
      (outer : Headed r f blocks ⟨stack, none⟩) (kind : b.kind = .deferred) :
      Headed r f (b :: blocks) ⟨stack, some []⟩

namespace Headed

variable
  {k : Stacks}

theorem outside (h : Headed r f blocks k) (nesting : Nesting blocks none r recording) : Headed r g blocks k := by
  have noBlock : ∀ {b : Block} {rec : Record}, b.kind = rec.kind →
      ¬(b.kind = .function ∨ b.kind.isControl = true) ∧ b.kind ≠ .deferred := by
    intro b rec hkind
    rw [hkind]
    cases rec <;> exact ⟨by simp [Record.kind, BlockKind.isControl], by simp [Record.kind]⟩
  cases nesting with
  | empty =>
    cases h
    exact .empty
  | record kind framed =>
    cases h with
    | openStruct t hkind record openFields => exact .openStruct t hkind record openFields
    | struct hkind record complete => exact .struct hkind record complete
    | enum t hkind record => exact .enum t hkind record
    | block _ hkind => exact absurd hkind (noBlock kind).1
    | deferred _ hkind => exact absurd hkind (noBlock kind).2

theorem close_other (h : Headed r f (b :: blocks) k) (kind : b.kind ≠ .struct ∧ b.kind ≠ .enum ∧ b.kind ≠ .deferred) :
    ∃ n outer, k = outer.set (n :: outer.top) ∧ Headed r f blocks outer ∧ b.HeadedBy f n := by
  cases h with
  | openStruct _ hkind | struct hkind => exact absurd hkind kind.1
  | enum _ hkind => exact absurd hkind kind.2.1
  | block outer _ head => exact ⟨_, _, rfl, outer, head⟩
  | deferred _ hkind => exact absurd hkind kind.2.2

theorem close_deferred (h : Headed r f (b :: blocks) k) (kind : b.kind = .deferred) :
    ∃ stack, k = ⟨stack, some []⟩ ∧ Headed r f blocks ⟨stack, none⟩ := by
  cases h with
  | openStruct _ hkind | struct hkind | enum _ hkind => rw [kind] at hkind; cases hkind
  | block _ hkind => rw [kind] at hkind; rcases hkind with h | h <;> cases h
  | deferred outer _ => exact ⟨_, rfl, outer⟩

theorem close_struct (h : Headed (some (.struct d)) f [b] k) (kind : b.kind = .struct) :
    d.fieldsOpen = true ∧ (∃ t, k = ⟨[.plain t (.structName d.name)], none⟩) ∨
      d.fieldsOpen = false ∧ k = ⟨[], none⟩ := by
  cases h with
  | openStruct t _ record openFields =>
    cases record
    exact .inl ⟨openFields, t, rfl⟩
  | struct _ record complete =>
    cases record
    exact .inr ⟨complete, rfl⟩
  | enum _ _ record => cases record
  | block _ hkind => rw [kind] at hkind; rcases hkind with h | h <;> cases h
  | deferred _ hkind => rw [kind] at hkind; cases hkind

theorem close_enum {d : EnumDraft} (h : Headed (some (.enum d)) f [b] k) (kind : b.kind = .enum) :
    ∃ t, k = ⟨[.plain t (.enumName d.name)], none⟩ := by
  cases h with
  | openStruct _ _ record | struct _ record => cases record
  | enum t _ record =>
    cases record
    exact ⟨t, rfl⟩
  | block _ hkind => rw [kind] at hkind; rcases hkind with h | h <;> cases h
  | deferred _ hkind => rw [kind] at hkind; cases hkind

theorem top_switch (h : Headed r f (b :: blocks) k) (kind : b.kind = .switch) :
    ∃ t subject rest, k.top = .plain t (.switch subject) :: rest ∧ b.value = subject.ty.resolved := by
  obtain ⟨n, outer, rfl, -, head⟩ := h.close_other (by simp [kind])
  obtain ⟨t, subject, rfl, hvalue⟩ := head.switch kind
  exact ⟨t, subject, outer.top, outer.top_set _, hvalue⟩

theorem find_function {g : FunctionInfo} (h : Headed r (some g) blocks k)
    (nesting : Nesting blocks (some g) r recording) (direct : k.group = none) :
    ∃ t sig, k.top.find? Node.isFunction = some (.functionOf t sig) ∧ g.ret = sig.ret := by
  generalize hf : some g = f at nesting
  induction nesting generalizing k with
  | empty | record => cases hf
  | function _ kind _ _ =>
    obtain ⟨n, outer, rfl, -, head⟩ := h.close_other (by simp [kind])
    obtain ⟨t, sig, g', rfl, hg, hret⟩ := head.function kind
    cases hg
    rw [outer.top_set]
    exact ⟨t, sig, rfl, hret⟩
  | control _ kind _ ih =>
    have noFunction := (BlockKind.of_isControl kind).1
    obtain ⟨n, ⟨program, group⟩, rfl, outer, head⟩ :=
      h.close_other (BlockKind.of_isControl kind).2
    cases group with
    | some _ => cases direct
    | none =>
      obtain ⟨t, sig, found, hret⟩ := ih outer rfl hf
      refine ⟨t, sig, ?_, hret⟩
      rw [Stacks.top_set, List.find?_cons_of_neg (by rw [head.control noFunction]; nofun)]
      exact found
  | deferred _ kind =>
    obtain ⟨stack, rfl, -⟩ := h.close_deferred kind
    cases direct

theorem noSwitch (h : Headed r f blocks k) (other : blocks.head?.map (·.kind) ≠ some .switch) (below : k.Below base) : (k.top ++ base).head?.any Node.isSwitch = false := by
  cases h with
  | empty | struct =>
    cases below
    rfl
  | openStruct | enum => rfl
  | @block b n blocks k outer kind head =>
    rw [k.top_set]
    refine Bool.eq_false_iff.mpr fun isSwitch => other ?_
    rw [List.head?_cons, Option.map_some, head.isSwitch isSwitch]
  | deferred => exact Ready.noSwitch below

theorem ready {g : FunctionInfo} (h : Headed r (some g) blocks k) (nesting : Nesting blocks (some g) r recording)
    (other : blocks.head?.map (·.kind) ≠ some .switch) (below : k.Below base) : Ready (k.top ++ base) := by
  refine ⟨?_, h.noSwitch other below⟩
  rw [any_append, Bool.or_eq_true]
  cases hgroup : k.group with
  | none =>
    obtain ⟨t, sig, found, -⟩ := h.find_function nesting hgroup
    exact .inl (any_eq_true.mpr ⟨_, mem_of_find?_eq_some found, rfl⟩)
  | some stack =>
    rw [Stacks.Below, hgroup] at below
    exact .inr (Ready.function below)

theorem target (h : Headed r f blocks k)
    (arranged : Arranged blocks groups) (jump : State.canJump blocks = true) (base : List Node) :
    ((k.top ++ base).takeWhile fun m => !m.isFunction).any Node.isTarget = true := by
  induction h with
  | empty => cases jump
  | openStruct _ kind | struct kind | enum _ kind | deferred _ kind => simp [State.canJump, kind] at jump
  | @block b n blocks k outer _ head ih =>
    have noFunction : b.kind ≠ .function := by
      intro kind
      simp [State.canJump, kind] at jump
    rw [k.top_set, cons_append, takeWhile_cons_of_pos (by rw [head.control noFunction]; rfl),
      any_cons, Bool.or_eq_true]
    by_cases leaves : b.kind.isTarget = true
    · exact .inl (head.isTarget leaves)
    refine .inr (ih (arranged.shrink (suffix_cons b blocks) (List.Subset.refl _)) ?_)
    by_cases arm : b.kind = .arm
    · -- The block around a case is a switch, which a jump can leave.
      have around := arranged.arms b blocks suffix_rfl arm
      cases blocks with
      | nil => cases around
      | cons c blocks => simp [State.canJump, Option.some.inj around]
    · cases kind : b.kind <;> simp_all [State.canJump, BlockKind.isTarget]

end Headed

namespace State

open Program (Reads)

/-- Wherever deferred statements may be listed, the nodes put `final` on the stack. -/
def ReadsAnywhere (strict : Prop) (nodes final : List Node) : Prop :=
  ∀ base, Ready base → Reads (Node.Placed strict) base nodes (final ++ base)

/-- The program and the deferred groups were read with the stacks `k`. Complete groups leave nothing on their
stacks. -/
structure Lists (strict : Prop) (s : State) (k : Stacks) : Prop where
  program : Reads (Node.Placed strict) [] (s.program.map (·.node)) k.program
  recording : Option.Rel (ReadsAnywhere strict) s.deferral.recording k.group
  groups : ∀ g ∈ s.deferral.groups, ReadsAnywhere strict g.2 []

namespace Lists

variable {s : State} {k : Stacks}

theorem fewer (h : s.Lists strict k) (program : s'.program = s.program)
    (recording : s'.deferral.recording = s.deferral.recording)
    (groups : s'.deferral.groups ⊆ s.deferral.groups) : s'.Lists strict k := by
  refine ⟨?_, ?_, fun g hg => h.groups g (groups hg)⟩
  · rw [program]
    exact h.program
  · rw [recording]
    exact h.recording

theorem congr (h : s.Lists strict k) (program : s'.program = s.program)
    (deferral : s'.deferral = s.deferral) : s'.Lists strict k :=
  h.fewer program (by rw [deferral]) (by rw [deferral]; exact List.Subset.refl _)

theorem direct (h : s.Lists strict k) (direct : s.deferral.isRecording = false) : k.group = none := by
  have recording := h.recording
  have nothing : s.deferral.recording = none := by simpa [Deferral.isRecording] using direct
  rw [nothing] at recording
  generalize k.group = group at recording
  cases recording
  rfl

theorem emittedReads (h : s.Lists strict k)
    (reads : ∀ base, k.Below base → Reads (Node.Placed strict) (k.top ++ base) ns (stack ++ base)) :
    (s.emittedAll ns).Lists strict (k.set stack) := by
  obtain ⟨program, group⟩ := k
  have recording := h.recording
  cases hnodes : s.deferral.recording with
  | some nodes =>
    rw [hnodes] at recording
    cases recording with
    | some hgroup =>
      rw [emittedAll_deferred ns hnodes]
      exact ⟨h.program, .some fun base ready => (hgroup base ready).append (reads base ready), h.groups⟩
  | none =>
    rw [hnodes] at recording
    cases recording with
    | none =>
      rw [emittedAll_direct ns hnodes]
      refine ⟨?_, by rw [hnodes]; exact .none, h.groups⟩
      have more : Reads (Node.Placed strict) program ns stack := by simpa [Stacks.top] using reads [] rfl
      have nodes : ns.map (fun n => (Entry.of n s.file).node) = ns := map_id ns
      rw [map_append, map_map, Function.comp_def, nodes]
      exact h.program.append more

theorem emitted (h : s.Lists strict k) (place : ∀ base, k.Below base → n.Placed strict (k.top ++ base))
    (next : Program.read k.top n = some stack) : (s.emitted n).Lists strict (k.set stack) :=
  h.emittedReads fun base below => .single (place base below) (Program.read_append_base next base)

theorem emitted_inert (h : s.Lists strict k) (inert : n.Inert)
    (noSwitch : ∀ base, k.Below base → (k.top ++ base).head?.any Node.isSwitch = false) :
    (s.emitted n).Lists strict k := by
  have emitted := h.emitted
    (fun base below => .plain (fun _ => inert.fits _) (noSwitch base below) inert.noJump) (inert.read _)
  rwa [k.set_top] at emitted

theorem emittedAll (h : s.Lists strict k) (balanced : ReadsAnywhere strict ns [])
    (ready : ∀ base, k.Below base → Ready (k.top ++ base)) : (s.emittedAll ns).Lists strict k := by
  have listed : (s.emittedAll ns).Lists strict (k.set k.top) :=
    h.emittedReads fun base below => balanced _ (ready base below)
  rwa [k.set_top] at listed

end Lists

theorem deferred_of {P : List Node → Prop} (nil : P []) (append : ∀ {ns ms}, P ns → P ms → P (ns ++ ms))
    {d : Deferral} (groups : ∀ g ∈ d.groups, P g.2) :
    (∀ depth, P (d.statementsAt depth)) ∧ ∀ depth bottom, P (d.pending depth bottom) := by
  have flatten : ∀ {lists : List (List Node)}, (∀ ns ∈ lists, P ns) → P lists.flatten := by
    intro lists h
    induction lists with
    | nil => exact nil
    | cons ns lists ih => exact append (h ns (.head _)) (ih fun ms hm => h ms (.tail _ hm))
  have statements : ∀ depth, P (d.statementsAt depth) := by
    refine fun depth => flatten fun ns hns => ?_
    obtain ⟨e, he, rfl⟩ := mem_map.mp hns
    exact groups e (mem_filter.mp (mem_reverse.mp he)).1
  refine ⟨statements, fun depth bottom => flatten fun ns hns => ?_⟩
  obtain ⟨i, -, rfl⟩ := mem_map.mp hns
  exact statements _

theorem Lists.deferred {s : State} (h : s.Lists strict k) :
    (∀ depth, ReadsAnywhere strict (s.deferral.statementsAt depth) []) ∧
      ∀ depth bottom, ReadsAnywhere strict (s.deferral.pending depth bottom) [] :=
  deferred_of (P := fun ns => ReadsAnywhere strict ns []) (fun _ _ => .nil _)
    (fun hn hm base ready => (hn base ready).append (hm base ready)) h.groups

/-- What was listed leaves the headers of the open blocks on the stacks. -/
def Listed (strict : Prop) (s : State) : Prop :=
  ∃ k, Headed s.record s.function s.blocks k ∧ s.Lists strict k

namespace Listed

variable {s s' : State}

theorem child (s : State) (source : Source) (last : Token) : (s.child source last).Listed strict :=
  ⟨⟨[], none⟩, .empty, .nil _, .none, by simp [State.child]⟩

theorem congr (hs : s.Listed strict) (record : s'.record = s.record)
    (function : s'.function = s.function) (blocks : s'.blocks = s.blocks)
    (program : s'.program = s.program) (deferral : s'.deferral = s.deferral) : s'.Listed strict := by
  obtain ⟨k, headed, lists⟩ := hs
  refine ⟨k, ?_, lists.congr program deferral⟩
  rw [record, function, blocks]
  exact headed

theorem emitted_inert (hs : s.Listed strict) (inert : n.Inert)
    (other : s.blocks.head?.map (·.kind) ≠ some .switch) : (s.emitted n).Listed strict := by
  obtain ⟨k, headed, lists⟩ := hs
  exact ⟨k, by simpa using headed, lists.emitted_inert inert fun _ below => headed.noSwitch other below⟩

theorem emitted_jump (hs : s.Listed strict) (nested : s.Nested) (fits : ∀ stack, n.fitsIn stack = true)
    (reads : ∀ stack, Program.read stack n = some stack) (inside : s.function ≠ none) (target : canJump s.blocks = true)
    (other : s.blocks.head?.map (·.kind) ≠ some .switch) : (s.emitted n).Listed strict := by
  obtain ⟨k, headed, lists⟩ := hs
  refine ⟨k, by simpa using headed, ?_⟩
  obtain ⟨f, hf⟩ := Option.ne_none_iff_exists'.mp inside
  have nesting := nested.nesting
  rw [hf] at headed nesting
  have emitted : (s.emitted n).Lists strict (k.set k.top) := by
    refine lists.emitted (fun base below => ?_) (reads _)
    have ready := headed.ready nesting other below
    exact ⟨fun _ => fits _, fun inSwitch => absurd (ready.noSwitch.symm.trans inSwitch) nofun,
      fun _ => ⟨headed.target nested.arranged target base, ready.function⟩⟩
  rwa [k.set_top] at emitted

theorem declares (hs : s.Listed strict) (h : s.Declares x s') : s'.Listed strict := by
  cases h <;> exact hs.congr rfl rfl rfl rfl rfl

theorem begin (hs : s.Listed strict) (head : b.HeadedBy s.function n) (kind : b.kind.isControl = true)
    (place : ∀ k base, Headed s.record s.function s.blocks k → k.Below base →
      n.Placed strict (k.top ++ base)) : ((s.emitted n).opened b).Listed strict := by
  obtain ⟨k, headed, lists⟩ := hs
  have next := Program.read_of_opens head.opens k.top
  refine ⟨k.set (n :: k.top), ?_, ?_⟩
  · simpa [State.opened] using headed.block (.inr kind) head
  · exact (lists.emitted (fun base => place k base headed) next).congr rfl rfl

theorem opens (hs : s.Listed (settings.feature .strictTypes = true)) (complete : s.Complete)
    (h : s.Opens settings n b) :
    ((s.emitted n).opened b).Listed (settings.feature .strictTypes = true) := by
  have head : b.HeadedBy s.function n := by
    cases h with
    | switch =>
      exact ⟨rfl, fun _ => rfl, nofun, fun _ => rfl, fun _ => ⟨_, _, rfl, rfl⟩, fun _ => rfl, fun _ => rfl, nofun⟩
    | iterate => exact ⟨rfl, fun _ => rfl, nofun, fun _ => rfl, nofun, nofun, fun _ => rfl, nofun⟩
    | branch _ _ _ _ _ _ _ conditional =>
      exact ⟨rfl, fun _ => rfl, nofun, fun _ => rfl, nofun, nofun, nofun, fun _ => bne_iff_ne.mpr conditional⟩
    | _ => exact ⟨rfl, fun _ => rfl, nofun, fun _ => rfl, nofun, nofun, nofun, nofun⟩
  have control : b.kind.isControl = true := by
    cases h <;> rfl
  refine hs.begin head control fun k base headed below => ?_
  cases h with
  | bare => exact ⟨fun _ => rfl, fun _ => rfl, nofun⟩
  | branch _ _ _ _ _ _ noSwitch | otherwise _ _ _ noSwitch | switch _ _ _ noSwitch | iterate _ _ _ _ _ noSwitch =>
    exact .plain (fun _ => rfl) (headed.noSwitch (of_decide_eq_false noSwitch) below) rfl
  | arm brace t fall isDefault blocks kind read fits =>
    refine ⟨fun strict => ?_, fun _ => rfl, nofun⟩
    rw [blocks] at headed
    obtain ⟨t', subject, rest, htop, hvalue⟩ := headed.top_switch kind
    rw [htop]
    refine all_eq_true.mpr fun n hn => ?_
    rw [← hvalue]
    -- The type of a switched value is known, so every value of a case is checked against it.
    rcases fits n hn with absent | accepts | lax
    · have known := complete.blocks _ (by rw [blocks]; exact .head _) kind
      rw [Ty.ne_absent_of_isComplete known] at absent
      cases absent
    · exact accepts
    · exact absurd (lax.symm.trans strict) nofun

theorem loop (hs : s.Listed strict) (brace t : Token) (counter : String)
    (cond : List Node) (step : Impulse.Step) (noSwitch : s.inSwitch = false)
    (counts : (s.opened { kind := .loop, token := brace, framed := true }).Counts init counter s') :
    (s'.emitted (.plain t (.loop init counter cond step))).Listed strict := by
  obtain ⟨k, headed, lists⟩ := hs
  have head : Block.HeadedBy s.function { kind := .loop, token := brace, framed := true }
      (.plain t (.loop init counter cond step)) :=
    ⟨rfl, fun _ => rfl, nofun, fun _ => rfl, nofun, nofun, fun _ => rfl, nofun⟩
  have same : s'.record = s.record ∧ s'.function = s.function ∧
      s'.blocks = { kind := .loop, token := brace, framed := true } :: s.blocks ∧
      s'.program = s.program ∧ s'.deferral = s.deferral := by
    cases counts with
    | known => exact ⟨rfl, rfl, rfl, rfl, rfl⟩
    | introduced _ declared => cases declared <;> exact ⟨rfl, rfl, rfl, rfl, rfl⟩
  obtain ⟨record, function, blocks, program, deferral⟩ := same
  refine ⟨k.set (.plain t (.loop init counter cond step) :: k.top), ?_, ?_⟩
  · simp only [emitted_record, emitted_function, emitted_blocks, record, function, blocks]
    exact headed.block (.inr rfl) head
  · refine (lists.congr program deferral).emitted (fun base below => ?_) (Program.read_of_opens rfl _)
    exact .plain (fun _ => rfl) (headed.noSwitch (of_decide_eq_false noSwitch) below) rfl

theorem result (hs : s.Listed (settings.feature .strictTypes = true)) (complete : s.Complete)
    (nested : s.Nested) (t : Token) {value : Node}
    (inside : s.function = some f) (direct : s.deferral.isRecording = false)
    (noSwitch : s.inSwitch = false) (results : (s.view settings).Results f value)
    (deferred : pending = [] ∨ pending = s.deferral.pending s.depth f.depth) :
    ((s.emittedAll pending).emitted (.returned t value)).Listed (settings.feature .strictTypes = true) := by
  obtain ⟨k, headed, lists⟩ := hs
  have balanced : ReadsAnywhere (settings.feature .strictTypes = true) pending [] := by
    rcases deferred with rfl | rfl
    · exact fun _ _ => .nil _
    · exact lists.deferred.2 _ _
  have nesting := nested.nesting
  have headed' := headed
  rw [inside] at nesting headed'
  have other := of_decide_eq_false noSwitch
  obtain ⟨t', sig, found, hret⟩ := headed'.find_function nesting (lists.direct direct)
  have place : ∀ base, k.Below base →
      (Node.returned t value).Placed (settings.feature .strictTypes = true) (k.top ++ base) := by
    intro base below
    refine .plain (fun strict => ?_) (headed.noSwitch other below) rfl
    change (match (k.top ++ base).find? Node.isFunction with
      | some (.node _ _ (.function sig)) => sig.ret.givesBack value
      | _ => false) = true
    rw [List.find?_append, found]
    change sig.ret.givesBack value = true
    unfold Ty.givesBack
    rw [← hret]
    cases results with
    | nothing fits =>
      rcases fits with void | lax
      · rw [if_pos void]
        rfl
      · exact absurd (lax.symm.trans strict) nofun
    | value read fits =>
      rcases fits with ⟨notVoid, accepts⟩ | lax
      · rw [if_neg (by rw [notVoid]; nofun)]
        have wanted : f.ret.Wanted := .of_complete (complete.function f inside)
        rw [(complete.builds wanted read).isAbsent, accepts]
        rfl
      · exact absurd (lax.symm.trans strict) nofun
  have flushed := lists.emittedAll balanced fun _ below => headed'.ready nesting other below
  exact ⟨_, by simpa using headed, flushed.emitted place rfl⟩

theorem entered (hs : s.Listed strict) (nested : s.Nested) (t brace : Token)
    (placeholders : List String) (outside : s.function = none) :
    (s.entered t brace sig placeholders).Listed strict := by
  obtain ⟨k, headed, lists⟩ := hs
  have nesting := nested.nesting
  rw [outside] at nesting
  refine ⟨k.set (.functionOf t sig :: k.top), ?_, ?_⟩
  · simp only [State.entered, State.opened, emitted_record, emitted_blocks]
    refine (headed.outside nesting).block (.inl rfl) ⟨rfl, fun _ => rfl, ?_, fun h => absurd rfl h, ?_, ?_, ?_, ?_⟩
    · exact fun _ => ⟨t, sig, _, rfl, rfl, rfl⟩
    all_goals
      intro kind
      cases kind
  · have known : Lists strict { s with context := s.context.registered sig s.file } k :=
      lists.congr rfl rfl
    have place : ∀ base, k.Below base → (Node.functionOf t sig).Placed strict (k.top ++ base) :=
      fun _ below => .plain (fun _ => rfl) (headed.noSwitch (nested.noSwitch_outside outside) below) rfl
    exact (known.emitted place (Program.read_of_opens rfl _)).congr rfl rfl

theorem recorded (hs : s.Listed strict) (nested : s.Nested) (outside : s.function = none) (noRecord : s.record = none)
    (opens : Program.nodeOpens (.plain t form) = true) (fits : ∀ stack, (Node.plain t form).fitsIn stack = true)
    (noJump : ((Node.plain t form).isContinue || (Node.plain t form).isBreak) = false)
    (headed : ∀ b : Block, b.kind = r.kind → Headed (some r) none [b] ⟨[.plain t form], none⟩) :
    (s.recorded r t brace form).Listed strict := by
  obtain ⟨k, bottom, lists⟩ := hs
  have nesting := nested.nesting
  rw [outside, noRecord] at nesting
  obtain ⟨blocks, -⟩ := nesting.blocks_eq_nil
  rw [blocks] at bottom
  cases bottom with
  | empty =>
    refine ⟨⟨[.plain t form], none⟩, ?_, ?_⟩
    · simp only [State.recorded, State.opened, emitted_record, emitted_function, emitted_blocks, blocks, outside]
      exact headed _ rfl
    · have known : Lists strict { s with record := some r } ⟨[], none⟩ := lists.congr rfl rfl
      have place : ∀ base, Stacks.Below ⟨[], none⟩ base → (Node.plain t form).Placed strict ([] ++ base) := by
        rintro _ rfl
        exact .plain (fun _ => fits _) rfl noJump
      exact (known.emitted place (Program.read_of_opens opens _)).congr rfl rfl

theorem setRecord (hs : s.Listed strict) (nested : s.Nested)
    (record : s.record = some old) (outside : s.function = none)
    (headed : ∀ b k, b.kind = old.kind → Headed (some old) none [b] k → Headed (some new) none [b] k) :
    Listed strict { s with record := some new } := by
  obtain ⟨b, blocks, kind⟩ := nested.record_only record outside
  obtain ⟨k, hk, lists⟩ := hs
  rw [record, outside, blocks] at hk
  refine ⟨k, ?_, lists.congr rfl rfl⟩
  dsimp only
  rw [outside, blocks]
  exact headed b k kind hk

theorem finishedFields (hs : s.Listed strict) (nested : s.Nested)
    (record : s.record = some (.struct d)) (openFields : d.fieldsOpen = true)
    (outside : s.function = none) : (s.finishedFields d).Listed strict := by
  obtain ⟨b, blocks, kind⟩ := nested.record_only record outside
  obtain ⟨k, headed, lists⟩ := hs
  rw [record, outside, blocks] at headed
  rcases headed.close_struct kind with ⟨-, t, rfl⟩ | ⟨complete, -⟩
  · refine ⟨⟨[], none⟩, ?_, ?_⟩
    · simp only [State.finishedFields, emitted_record, emitted_function, emitted_blocks, blocks, outside]
      exact .struct kind rfl rfl
    · have body : (Node.plain d.token (.structBody d.name d.generics d.fields)).Inert :=
        ⟨rfl, rfl, fun _ => rfl, rfl⟩
      refine Lists.emitted (k := ⟨[.plain t (.structName d.name)], none⟩) ?_ ?_ ?_
      · exact Lists.emitted_inert (lists.congr rfl rfl) body fun _ _ => rfl
      · exact fun _ _ => .plain (fun _ => rfl) rfl rfl
      · exact Program.read_of_pairs rfl rfl (by simp [Program.pairs, Node.plain]) []
  · rw [openFields] at complete
    cases complete

theorem closeEnum (hs : s.Listed strict) (nested : s.Nested)
    {d : EnumDraft} (blocks : s.blocks = b :: rest) (kind : b.kind = .enum) (record : s.record = some (.enum d)) :
    Listed strict { s.finishedEnum d with blocks := rest, afterBranch := false, record := none } := by
  obtain ⟨rfl, outside, -⟩ := nested.close_record blocks (.inr kind)
  obtain ⟨k, headed, lists⟩ := hs
  rw [record, outside, blocks] at headed
  obtain ⟨t, rfl⟩ := headed.close_enum kind
  refine ⟨⟨[], none⟩, .empty, ?_⟩
  have body : (Node.plain d.token (.enumBody d.name d.fields)).Inert := ⟨rfl, rfl, fun _ => rfl, rfl⟩
  have count : (Node.declaration d.token (d.name ++ ".field_count") .int
      (.numeral d.token (toString d.fields.length) .int) true true true).Inert :=
    ⟨rfl, rfl, fun _ => rfl, rfl⟩
  have listed : (s.finishedEnum d).Lists strict ⟨[], none⟩ := by
    refine Lists.emitted (k := ⟨[.plain t (.enumName d.name)], none⟩) ?_ ?_ ?_
    · refine Lists.emitted_inert (Lists.emitted_inert ?_ body fun _ _ => rfl) count fun _ _ => rfl
      exact lists.congr rfl rfl
    · exact fun _ _ => .plain (fun _ => rfl) rfl rfl
    · exact Program.read_of_pairs rfl rfl (by simp [Program.pairs, Node.plain]) []
  exact listed.congr rfl rfl

theorem closeStruct (hs : s.Listed strict) (nested : s.Nested) (blocks : s.blocks = b :: rest) (kind : b.kind = .struct)
    (record : s.record = some (.struct d)) (complete : d.fieldsOpen = false) :
    Listed strict { s with blocks := rest, afterBranch := false, record := none } := by
  obtain ⟨rfl, outside, -⟩ := nested.close_record blocks (.inl kind)
  obtain ⟨k, headed, lists⟩ := hs
  rw [record, outside, blocks] at headed
  rcases headed.close_struct kind with ⟨openFields, -⟩ | ⟨-, rfl⟩
  · rw [complete] at openFields
    cases openFields
  · exact ⟨⟨[], none⟩, .empty, lists.congr rfl rfl⟩

theorem defer (hs : s.Listed strict) (brace : Token) (direct : s.deferral.isRecording = false) :
    Listed strict { s.opened { kind := .deferred, token := brace, framed := true } with
      deferral := s.deferral.start } := by
  obtain ⟨⟨stack, group⟩, headed, lists⟩ := hs
  obtain rfl : group = none := lists.direct direct
  refine ⟨⟨stack, some []⟩, headed.deferred rfl, ?_⟩
  exact ⟨lists.program, .some fun _ _ => .nil _, lists.groups⟩

theorem closeDeferred (hs : s.Listed strict) {scope : Scope}
    (blocks : s.blocks = b :: rest) (kind : b.kind = .deferred) :
    Listed strict { s with
      blocks := rest, afterBranch := false, scope := scope
      deferral := s.deferral.finish rest.length } := by
  obtain ⟨k, headed, lists⟩ := hs
  rw [blocks] at headed
  obtain ⟨stack, rfl, outer⟩ := headed.close_deferred kind
  refine ⟨⟨stack, none⟩, outer, lists.program, ?_, ?_⟩
  · unfold Deferral.finish
    split <;> exact .none
  · have recording := lists.recording
    unfold Deferral.finish
    split
    · next n ns hgroup =>
      rw [hgroup] at recording
      cases recording with
      | some balanced =>
        intro g hg
        rcases mem_append.mp hg with old | new
        · exact lists.groups g old
        · obtain rfl := mem_singleton.mp new
          exact balanced
    · exact lists.groups

theorem closed (hs : s.Listed strict) (nested : s.Nested) (t : Token) {rest : List Block}
    {scope : Scope} (blocks : s.blocks = b :: rest) (kind : b.kind ≠ .struct ∧ b.kind ≠ .enum ∧ b.kind ≠ .deferred) :
    (s.closed b rest t scope).Listed strict := by
  obtain ⟨k, headed, lists⟩ := hs
  rw [blocks] at headed
  obtain ⟨n, outer, rfl, houter, head⟩ := headed.close_other kind
  have nesting := nested.nesting
  rw [blocks] at nesting
  obtain ⟨-, f, hf, hcase⟩ := nesting.close_other kind
  refine ⟨outer, ?_, ?_⟩
  · rw [closed_record, closed_function, closed_blocks]
    split
    · next isFunction =>
      rcases hcase with ⟨-, without, -⟩ | ⟨control, -⟩
      · exact houter.outside without
      · exact absurd isFunction (BlockKind.of_isControl control).1
    · exact houter
  · have shut : Lists strict { s with
        blocks := rest
        afterBranch := b.kind = .branch
        deferral := s.deferral.without (rest.length + 1) } (outer.set (n :: outer.top)) :=
      lists.fewer rfl rfl filter_sublist.subset
    have flushed : ∀ s' : State, s'.Lists strict (outer.set (n :: outer.top)) →
        (s'.emittedAll (s.deferral.statementsAt (rest.length + 1))).Lists strict
          (outer.set (n :: outer.top)) := by
      intro s' listed
      by_cases isSwitch : b.kind = .switch
      · rw [nested.statementsAt_switch blocks isSwitch]
        exact listed
      · rw [hf] at headed nesting
        refine listed.emittedAll (lists.deferred.1 _) fun base below => headed.ready nesting ?_ below
        simpa using isSwitch
    have next : Program.read (outer.set (n :: outer.top)).top (.plain t .blockEnd)
        = some outer.top := by
      rw [outer.top_set]
      exact Program.read_of_pairs rfl rfl (head.ends t) _
    have place : ∀ base, (outer.set (n :: outer.top)).Below base → (Node.plain t .blockEnd).Placed strict
        ((outer.set (n :: outer.top)).top ++ base) := fun _ _ => ⟨fun _ => rfl, fun _ => rfl, nofun⟩
    have ended := (flushed _ shut).emitted place next
    rw [outer.set_set, outer.set_top] at ended
    unfold State.closed
    split
    · exact ended.fewer rfl rfl filter_sublist.subset
    · exact ended.congr rfl rfl

theorem step (hs : s.Listed (settings.feature .strictTypes = true)) (complete : s.Complete) (nested : s.Nested)
    (h : Step settings s s') : s'.Listed (settings.feature .strictTypes = true) := by
  cases h with
  | idle | load | mark => exact hs.congr rfl rfl rfl rfl rfl
  | header _ _ bottom =>
    refine emitted_inert ?_ ⟨rfl, rfl, fun _ => rfl, rfl⟩ (by simp [bottom])
    exact hs.congr rfl rfl rfl rfl rfl
  | write h noSwitch =>
    have other := of_decide_eq_false noSwitch
    cases h with
    | leave _ inside target | again _ inside target =>
      exact hs.emitted_jump nested (fun _ => rfl) (fun _ => rfl) inside target other
    | _ => exact hs.emitted_inert ⟨rfl, rfl, fun _ => rfl, rfl⟩ other
  | result t inside direct noSwitch results deferred =>
    exact hs.result complete nested t inside direct noSwitch results (deferred.imp And.right And.right)
  | declare _ h => exact hs.declares h
  | define _ h noSwitch =>
    refine (hs.declares h).emitted_inert ⟨rfl, rfl, fun _ => rfl, rfl⟩ ?_
    cases h <;> exact of_decide_eq_false noSwitch
  | begin h =>
    refine opens ?_ complete.unmarked h.unmarked
    exact hs.congr rfl rfl rfl rfl rfl
  | loop brace t _ counter step _ noSwitch counts _ =>
    exact hs.loop brace t counter _ step noSwitch counts
  | defer brace _ direct => exact hs.defer brace direct
  | fields record openFields outside => exact hs.finishedFields nested record openFields outside
  | function t brace placeholders outside => exact hs.entered nested t brace placeholders outside
  | struct t brace generics outside noRecord =>
    exact hs.recorded nested outside noRecord rfl (fun _ => rfl) rfl fun b kind =>
      .openStruct t kind rfl rfl
  | enum t brace outside noRecord =>
    exact hs.recorded nested outside noRecord rfl (fun _ => rfl) rfl fun b kind => .enum t kind rfl
  | @structField d name toks ty record outside =>
    refine hs.setRecord nested record outside fun b k kind headed => ?_
    rcases headed.close_struct kind with ⟨openFields, t, rfl⟩ | ⟨complete, rfl⟩
    · exact .openStruct (d := { d with fields := d.fields ++ [⟨name, ty⟩] }) t kind rfl openFields
    · exact .struct kind rfl complete
  | @enumField d name record outside =>
    refine hs.setRecord nested record outside fun b k kind headed => ?_
    obtain ⟨t, rfl⟩ := headed.close_enum kind
    exact .enum (d := { d with fields := d.fields ++ [name] }) t kind rfl
  | closeStruct blocks kind record complete => exact hs.closeStruct nested blocks kind record complete
  | closeEnum blocks kind record => exact hs.closeEnum nested blocks kind record
  | closeDeferred blocks kind => exact hs.closeDeferred blocks kind
  | closeOther t blocks kind => exact hs.closed nested t blocks kind

theorem reads_group (hs : s.Listed strict)
    (member : group ∈ s.deferral.recording.toList ++ s.deferral.groups.map (·.2))
    (ready : Ready base) : ∃ final, Reads (Node.Placed strict) base group final := by
  obtain ⟨k, -, lists⟩ := hs
  rcases mem_append.mp member with recorded | finished
  · have recording := lists.recording
    rw [Option.mem_toList.mp recorded] at recording
    generalize k.group = stack at recording
    cases recording with
    | some reads => exact ⟨_, reads base ready⟩
  · obtain ⟨g, hg, rfl⟩ := mem_map.mp finished
    exact ⟨_, lists.groups g hg base ready⟩

theorem of_blocks_nil (hs : s.Listed strict) (bottom : s.blocks = []) :
    Reads (Node.Placed strict) [] (s.program.map (·.node)) [] := by
  obtain ⟨k, headed, lists⟩ := hs
  rw [bottom] at headed
  cases headed with
  | empty => exact lists.program

theorem noted (hs : s.Listed strict) (bottom : s.blocks = []) (t : Token) (source : Source) :
    (s.noted t source).Listed strict := by
  refine emitted_inert ?_ ⟨rfl, rfl, fun _ => rfl, rfl⟩ (by simp [bottom])
  exact hs.congr rfl rfl rfl rfl rfl

theorem absorbed (hs : s.Listed strict)
    (bottom : s.blocks = []) (hc : c.Listed strict) (done : c.blocks = []) :
    ((s.noted t source).absorbed c merged).Listed strict := by
  obtain ⟨k, headed, lists⟩ := hs.noted bottom t source
  have empty : (s.noted t source).blocks = [] := by simpa [State.noted] using bottom
  refine ⟨k, headed, ?_, lists.recording, lists.groups⟩
  rw [empty] at headed
  cases headed with
  | empty =>
    unfold State.absorbed
    rw [map_append]
    exact lists.program.append (hc.of_blocks_nil done)

theorem steps (hs : s.Listed (settings.feature .strictTypes = true)) (complete : s.Complete) (nested : s.Nested)
    (h : Steps settings s s') : s'.Listed (settings.feature .strictTypes = true) := by
  have keeps : ∀ {s s'}, s.Complete ∧ s.Nested ∧ s.Listed (settings.feature .strictTypes = true) →
      Step settings s s' →
      s'.Complete ∧ s'.Nested ∧ s'.Listed (settings.feature .strictTypes = true) :=
    fun ⟨complete, nested, hs⟩ h => ⟨complete.step h, nested.step h, hs.step complete nested h⟩
  refine (Steps.invariant keeps ?_ ?_ h ⟨complete, nested, hs⟩).2.2
  · intro s t source last ⟨complete, _, _⟩ _
    exact ⟨complete.child t source last, .child _ source last, .child _ source last⟩
  · intro s t source last c merged ⟨complete, nested, hs⟩ bottom _ ⟨completeChild, _, hc⟩ done taken
    exact ⟨complete.absorbed completeChild taken, nested.absorbed _ _ _ _, hs.absorbed bottom hc done⟩

end Listed

end State

end Impulse
