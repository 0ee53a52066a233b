import Impulse.Proofs.Chronicle
import Mathlib.Data.List.TakeWhile

/-!
# What deferred statements mean where they run

The names of a deferred statement are looked up once, where it is read. The statement is listed later: at the end of
the block that defers it, and in front of the returns before that. What was declared in the meantime, in the same block
or in blocks that were opened in it, can be seen there too. So a name stands for the same declaration exactly if nothing
that was declared since brings a variable of that name. Nothing refuses such a declaration.

## Design notes

Places are compared by frames. The frames of the blocks around a deferred one stay open as long as something waits in
them, and all but the innermost of them stay as they are. A declaration has no name of its own that could be compared,
so it is given by the list that begins with it and goes on with the declarations around it.
-/

namespace Impulse

open List

namespace Agenda

variable {a a' : Agenda α}

variable (replay w m) in
/-- In the course of some events, the deferred node `w` is listed in front of `m`, the node of one of them. -/
inductive Replays : Agenda α → List (Event α) → Prop
  | here {a a' : Agenda α} {e : Event α} {log : List (Event α)} {deferred : List α}
      (after : a.after? replay e = some a') (listed : a'.listed = a.listed ++ (deferred ++ [m]))
      (mem : w ∈ deferred) : Replays a (e :: log)
  | later {a a' : Agenda α} {e : Event α} {log : List (Event α)} (after : a.after? replay e = some a')
      (h : Replays a' log) : Replays a (e :: log)

theorem waited_of_after (after : a.after? replay e = some a')
    (listed : a'.listed = a.listed ++ (deferred ++ [m])) (mem : w ∈ deferred) :
    (e = .closes m ∨ e = .returns m) ∧ a.group = none ∧ w ∈ a.blocks.flatten.flatten := by
  -- In all other cases the event lists its own node at most.
  have alone : ∀ {n : α}, a.listed ++ [n] = a.listed ++ (deferred ++ [m]) → False := by
    intro n same
    have own : [] ++ [n] = deferred ++ [m] := append_cancel_left same
    rw [← (append_inj' own rfl).1] at mem
    cases mem
  have nothing : a.listed = a.listed ++ (deferred ++ [m]) → False := by
    intro same
    simpa using append_right_eq_self.mp same.symm
  unfold after? at after
  split at after <;> cases after
  · exact (alone listed).elim
  · exact (alone listed).elim
  · next groups blocks listed' n =>
    obtain ⟨rfl, own⟩ := append_inj' (append_cancel_left listed) rfl
    obtain rfl : n = m := singleton_inj.mp own
    refine ⟨.inl rfl, rfl, ?_⟩
    rw [flatten_cons, flatten_append]
    exact mem_append_left _ mem
  · next blocks listed' n =>
    obtain ⟨rfl, own⟩ := append_inj' (append_cancel_left listed) rfl
    obtain rfl : n = m := singleton_inj.mp own
    refine ⟨.inr rfl, rfl, ?_⟩
    cases replay with
    | false => cases mem
    | true => exact mem
  all_goals exact (nothing listed).elim

namespace Replays

theorem event (h : Replays replay w m a log) : .closes m ∈ log ∨ .returns m ∈ log := by
  induction h with
  | here after listed mem =>
    rcases (waited_of_after after listed mem).1 with rfl | rfl
    · exact .inl (.head _)
    · exact .inr (.head _)
  | later _ _ ih => exact ih.imp (.tail _) (.tail _)

theorem of_append (run : a.run? replay log = some a') (h : Replays replay w m a (log ++ log')) :
    Replays replay w m a log ∨ Replays replay w m a' log' := by
  induction log generalizing a with
  | nil =>
    cases run
    exact .inr h
  | cons e log ih =>
    obtain ⟨a₁, first, rest⟩ := Option.bind_eq_some_iff.mp run
    cases h with
    | here after listed mem => exact .inl (.here after listed mem)
    | later after h =>
      rw [first] at after
      cases after
      exact (ih rest h).imp_left (.later first)

end Replays

theorem listed_subset (run : a.run? replay log = some a') : a.listed ⊆ a'.listed := by
  have behind : Agenda.run? replay _ log = _ := run?_behind a.listed { a with listed := [] } log
  have same : ({ a with listed := [] } : Agenda α).behind a.listed = a := by simp [Agenda.behind]
  rw [same, run] at behind
  obtain ⟨b, -, rfl⟩ := Option.map_eq_some_iff.mp behind.symm
  exact subset_append_left _ _

theorem Replays.listed (h : Replays replay w m a log) (run : a.run? replay log = some a') :
    w ∈ a'.listed ∧ m ∈ a'.listed := by
  induction h with
  | here after listed mem =>
    obtain ⟨a₁, first, rest⟩ := Option.bind_eq_some_iff.mp run
    rw [after] at first
    cases first
    refine ⟨listed_subset rest ?_, listed_subset rest ?_⟩
    · simp [listed, mem]
    · simp [listed]
  | later after _ ih =>
    obtain ⟨a₁, first, rest⟩ := Option.bind_eq_some_iff.mp run
    rw [after] at first
    cases first
    exact ih rest

end Agenda

/-- Around the innermost ones, `n` frames are those of before, and the one inside of them has only got more
declarations. -/
def FramesKept (n : Nat) (old new : List (List Declaration)) : Prop :=
  ∃ inner own outer newer added, old = inner ++ own :: outer ∧ new = newer ++ (added ++ own) :: outer ∧
    outer.length = n

namespace FramesKept

theorem refl (h : n < frames.length) : FramesKept n frames frames := by
  induction frames with
  | nil => cases h
  | cons own rest ih =>
    by_cases here : rest.length = n
    · exact ⟨[], own, rest, [], [], rfl, rfl, here⟩
    · have further : n < rest.length := by
        rw [length_cons] at h
        omega
      obtain ⟨inner, own', outer, newer, added, before, now, length⟩ := ih further
      exact ⟨own :: inner, own', outer, own :: newer, added, congrArg _ before, congrArg _ now, length⟩

theorem cons_left (h : FramesKept n old new) (frame : List Declaration) : FramesKept n (frame :: old) new := by
  obtain ⟨inner, own, outer, newer, added, before, now, length⟩ := h
  exact ⟨frame :: inner, own, outer, newer, added, congrArg _ before, now, length⟩

theorem cons_right (h : FramesKept n old new) (frame : List Declaration) : FramesKept n old (frame :: new) := by
  obtain ⟨inner, own, outer, newer, added, before, now, length⟩ := h
  exact ⟨inner, own, outer, frame :: newer, added, before, congrArg _ now, length⟩

theorem trans {next} (h : FramesKept n old new) (h' : FramesKept n new next) : FramesKept n old next := by
  obtain ⟨inner, own, outer, newer, added, before, now, length⟩ := h
  obtain ⟨inner', own', outer', newer', added', before', now', length'⟩ := h'
  have same := append_inj' (now.symm.trans before') (by simp [length, length'])
  obtain ⟨rfl, rfl⟩ := List.cons.inj same.2
  exact ⟨inner, own, outer, newer', added' ++ added, before, by rw [now', append_assoc], length⟩

end FramesKept

theorem History.After.framesKept {n : Nat} (after : After s s' h h')
    (old : n < h.frames.length) (new : n < h'.frames.length) : FramesKept n h.frames h'.frames := by
  cases after with
  | same | addGlobal | addEnum => exact .refl old
  | opened => exact (FramesKept.refl old).cons_right []
  | closed =>
    cases frames : h.frames with
    | nil =>
      rw [frames] at old
      cases old
    | cons frame rest =>
      simp only [History.closed, frames, tail_cons] at new ⊢
      exact (FramesKept.refl new).cons_left frame
  | @addLocal x =>
    cases frames : h.frames with
    | nil =>
      rw [frames] at old
      cases old
    | cons frame rest =>
      simp only [History.addLocal, frames, modifyHead_cons]
      by_cases here : rest.length = n
      · exact ⟨[], frame, rest, [], [⟨s.context, x⟩], rfl, rfl, here⟩
      · have further : n < rest.length := by
          rw [frames, length_cons] at old
          omega
        exact ((FramesKept.refl further).cons_left frame).cons_right _
  | addCounter => exact (FramesKept.refl old).cons_right _

theorem Scope.DeclaredBy.length_eq {frames} {s : Scope}
    (h : s.DeclaredBy frames) : frames.length = s.depth + 1 := by
  induction h with
  | empty => rfl
  | push _ _ ih => exact congrArg (· + 1) ih
  | declare _ declared ih =>
    rw [Scope.depth, below_declareList? declared]
    exact ih

theorem framedCount_le {inner} (h : outer <:+ inner) : framedCount outer ≤ framedCount inner :=
  (h.sublist.filter _).length_le

namespace State

variable {s s' : State}

/-- A change of a reading, and what it leaves. -/
structure Turn (s : State) (h : History) (s' : State) (h' : History) : Prop where
  nested : s.Nested
  after : History.After s s' h h'
  frames : h.frames.length = framedCount s.blocks + 1
  frames' : h'.frames.length = framedCount s'.blocks + 1
  globals : s.function ≠ none →
    s'.context.globals = s.context.globals ∧ h'.globals = h.globals ∧ h'.enums = h.enums

theorem DeclaredBy.frames_length (declared : s.DeclaredBy h) (nested : s.Nested) :
    h.frames.length = framedCount s.blocks + 1 := by
  rw [declared.scope.length_eq, nested.frames]

end State

/-- The node was read in a deferred block that stands in `blocks`, and since then the frames of these blocks have only
got more declarations, and the global variables have stayed. -/
structure Written.DeferredIn (w : Written) (blocks : List Block) (s : State) (h : History) : Prop where
  read : ∃ inner d, w.state.blocks = inner ++ d :: blocks ∧ d.kind = .deferred
  frames : FramesKept (framedCount blocks) w.history.frames h.frames
  globals : s.context.globals = w.state.context.globals ∧ h.globals = w.history.globals ∧
    h.enums = w.history.enums

namespace Written.DeferredIn

variable {w : Written}

theorem here {inner} (n : Node) (inside : s.blocks = inner ++ d :: blocks)
    (kind : d.kind = .deferred) (frames : h.frames.length = framedCount s.blocks + 1) :
    DeferredIn ⟨n, s, h⟩ blocks s h where
  read := ⟨inner, d, inside, kind⟩
  frames := by
    have suffix : blocks <:+ s.blocks := ⟨inner ++ [d], by simp [inside]⟩
    exact .refl (frames ▸ Nat.lt_succ_of_le (framedCount_le suffix))
  globals := ⟨rfl, rfl, rfl⟩

theorem turn (deferred : w.DeferredIn blocks s h) (turn : State.Turn s h s' h')
    (inside : s.function ≠ none) (old : blocks <:+ s.blocks) (new : blocks <:+ s'.blocks) :
    w.DeferredIn blocks s' h' where
  read := deferred.read
  frames := by
    refine deferred.frames.trans (turn.after.framesKept ?_ ?_)
    · exact turn.frames ▸ Nat.lt_succ_of_le (framedCount_le old)
    · exact turn.frames' ▸ Nat.lt_succ_of_le (framedCount_le new)
  globals := by
    obtain ⟨table, globals, enums⟩ := turn.globals inside
    rw [table, globals, enums]
    exact deferred.globals

end Written.DeferredIn

namespace State

/-- The groups that wait in blocks: each of their nodes was deferred in its block. -/
inductive Awaits (s : State) (h : History) : List Block → List (List (List Written)) → Prop
  | nil : Awaits s h [] []
  | skip {b : Block} {rest : List Block} {groups : List (List (List Written))}
      (kind : b.schedules = false) (outer : Awaits s h rest groups) : Awaits s h (b :: rest) groups
  | here {b : Block} {rest : List Block} {first : List (List Written)}
      {groups : List (List (List Written))} (kind : b.schedules = true)
      (waits : ∀ w ∈ first.flatten, w.DeferredIn (b :: rest) s h) (outer : Awaits s h rest groups) :
      Awaits s h (b :: rest) (first :: groups)

theorem Turn.inside (turn : Turn s h s' h') (mem : b ∈ s.blocks) (kind : b.schedules = true) : s.function ≠ none := by
  intro outside
  have nesting := turn.nested.nesting
  rw [outside] at nesting
  rw [nesting.not_schedules b mem] at kind
  cases kind

namespace Awaits

variable {blocks : List Block}

theorem turn (waits : Awaits s h blocks groups) (turn : Turn s h s' h') (old : blocks <:+ s.blocks)
    (new : blocks <:+ s'.blocks) : Awaits s' h' blocks groups := by
  induction waits with
  | nil => exact .nil
  | skip kind _ ih =>
    exact .skip kind (ih ((suffix_cons _ _).trans old) ((suffix_cons _ _).trans new))
  | here kind waits _ ih =>
    have inside := turn.inside (old.subset (.head _)) kind
    exact .here kind (fun w hw => (waits w hw).turn turn inside old new)
      (ih ((suffix_cons _ _).trans old) ((suffix_cons _ _).trans new))

theorem deferredIn (waits : Awaits s h blocks groups) :
    ∀ w ∈ groups.flatten.flatten, ∃ around, around <:+ blocks ∧ w.DeferredIn around s h := by
  induction waits with
  | nil => exact forall_mem_nil _
  | skip _ _ ih =>
    intro w hw
    obtain ⟨around, suffix, deferred⟩ := ih w hw
    exact ⟨around, suffix.trans (suffix_cons _ _), deferred⟩
  | here _ waits _ ih =>
    intro w hw
    rw [flatten_cons, flatten_append] at hw
    rcases mem_append.mp hw with first | later
    · exact ⟨_, suffix_refl _, waits w first⟩
    · obtain ⟨around, suffix, deferred⟩ := ih w later
      exact ⟨around, suffix.trans (suffix_cons _ _), deferred⟩

theorem eq_nil (waits : Awaits s h blocks groups) (nowhere : ∀ b ∈ blocks, b.schedules = false) : groups = [] := by
  induction waits with
  | nil => rfl
  | skip _ _ ih => exact ih fun b hb => nowhere b (.tail _ hb)
  | here kind =>
    rw [nowhere _ (.head _)] at kind
    cases kind

theorem of_nowhere (nowhere : ∀ b ∈ blocks, b.schedules = false) : Awaits s h blocks [] := by
  induction blocks with
  | nil => exact .nil
  | cons b rest ih => exact .skip (nowhere b (.head _)) (ih fun b hb => nowhere b (.tail _ hb))

theorem of_cons (waits : Awaits s h (b :: rest) groups)
    (kind : b.schedules = true) : ∃ first further, groups = first :: further ∧
      (∀ w ∈ first.flatten, w.DeferredIn (b :: rest) s h) ∧ Awaits s h rest further := by
  cases waits with
  | skip kind' =>
    rw [kind] at kind'
    cases kind'
  | here _ waits outer => exact ⟨_, _, rfl, waits, outer⟩

end Awaits

/-- The schedule holds what was deferred in the open blocks. Where a group is being collected, that goes for its nodes
and for the blocks around it. -/
inductive Holds (s : State) (h : History) : Agenda Written → Prop
  | direct {groups : List (List (List Written))} {listed : List Written}
      (waits : Awaits s h s.blocks groups) : Holds s h ⟨groups, none, listed⟩
  | collecting {groups : List (List (List Written))} {group listed : List Written}
      {inner outer : List Block} {d : Block} (open' : s.blocks = inner ++ d :: outer)
      (kind : d.kind = .deferred) (collected : ∀ w ∈ group, w.DeferredIn outer s h)
      (waits : Awaits s h outer groups) : Holds s h ⟨groups, some (inner.length, group), listed⟩

theorem Holds.of_blocks_nil (holds : Holds s h a) (bottom : s.blocks = []) :
    a = ⟨[], none, a.listed⟩ := by
  cases holds with
  | direct waits =>
    rw [bottom] at waits
    cases waits
    rfl
  | collecting open' =>
    rw [bottom] at open'
    simp at open'

theorem Turn.inside_of_deferred (turn : Turn s h s' h') (mem : d ∈ s.blocks)
    (kind : d.kind = .deferred) : s.function ≠ none := by
  intro outside
  have nesting := turn.nested.nesting
  rw [outside] at nesting
  have none := nesting.any_deferred
  rw [nesting.not_recording, any_eq_false] at none
  exact none d mem (by simp [kind])

namespace Holds

theorem collect {inner} (turn : Turn s h s' h') (open' : s.blocks = inner ++ d :: outer) (stays : s'.blocks = inner' ++ d :: outer)
    (kind : d.kind = .deferred) (collected : ∀ w ∈ group, w.DeferredIn outer s h) (waits : Awaits s h outer groups)
    (own : ∀ w ∈ new, ∃ n, w = ⟨n, s, h⟩ ∨ w = ⟨n, s', h'⟩) :
    Holds s' h' ⟨groups, some (inner'.length, group ++ new), listed⟩ := by
  have inside : s.function ≠ none := turn.inside_of_deferred (by simp [open']) kind
  have old : outer <:+ s.blocks := ⟨inner ++ [d], by simp [open']⟩
  have new : outer <:+ s'.blocks := ⟨inner' ++ [d], by simp [stays]⟩
  refine .collecting stays kind (fun w hw => ?_) (waits.turn turn old new)
  rcases mem_append.mp hw with before | now
  · exact (collected w before).turn turn inside old new
  · obtain ⟨n, rfl | rfl⟩ := own w now
    · exact (Written.DeferredIn.here n open' kind turn.frames).turn turn inside old new
    · exact .here n stays kind turn.frames'

theorem lists (turn : Turn s h s' h') (holds : Holds s h a) {ns : List Node}
    (blocks : s'.blocks = s.blocks ∨ ∀ b ∈ s.blocks ++ s'.blocks, b.kind = .struct ∨ b.kind = .enum)
    (run : a.run? replay ((ns.map .lists).map (Event.written s h s' h')) = some a') : Holds s' h' a' := by
  have events : (ns.map Event.lists).map (Event.written s h s' h')
      = (ns.map fun n => (⟨n, s, h⟩ : Written)).map .lists := by
    rw [map_map, map_map]
    rfl
  rw [events] at run
  cases holds with
  | direct waits =>
    rw [Agenda.run?_lists_direct] at run
    cases run
    rcases blocks with same | records
    · refine .direct ?_
      rw [same]
      exact waits.turn turn (suffix_refl _) (same ▸ suffix_refl _)
    · have nowhere : ∀ b ∈ s.blocks ++ s'.blocks, b.schedules = false := by
        intro b hb
        rcases records b hb with kind | kind <;> simp [Block.schedules, kind]
      obtain rfl := waits.eq_nil fun b hb => nowhere b (mem_append_left _ hb)
      exact .direct (.of_nowhere fun b hb => nowhere b (mem_append_right _ hb))
  | @collecting _ _ _ _ _ d open' kind collected waits =>
    rw [Agenda.run?_lists_group] at run
    cases run
    rcases blocks with same | records
    · refine collect turn open' (same.trans open') kind collected waits fun w hw => ?_
      obtain ⟨n, -, rfl⟩ := mem_map.mp hw
      exact ⟨n, .inl rfl⟩
    · have record := records d (by simp [open'])
      rw [kind] at record
      simp at record

section

variable (turn : Turn s h s' h')
include turn

variable (holds : Holds s h a)
include holds

theorem opens (blocks : s'.blocks = b :: s.blocks) (kind : b.schedules = true)
    (run : a.after? replay (.opens ⟨n, s', h'⟩) = some a') : Holds s' h' a' := by
  cases holds with
  | direct waits =>
    cases run
    have outer : s.blocks <:+ s'.blocks := blocks ▸ suffix_cons _ _
    refine .direct ?_
    rw [blocks]
    exact .here kind (forall_mem_nil _) (waits.turn turn (suffix_refl _) outer)
  | @collecting _ _ _ inner outer d open' kind' collected waits =>
    cases run
    have stays : s'.blocks = (b :: inner) ++ d :: outer := by rw [blocks, open', cons_append]
    refine collect turn open' stays kind' collected waits fun w hw => ?_
    exact ⟨n, .inr (mem_singleton.mp hw)⟩

theorem closes (blocks : s.blocks = b :: s'.blocks) (kind : b.schedules = true)
    (run : a.after? replay (.closes ⟨n, s, h⟩) = some a') : Holds s' h' a' := by
  cases holds with
  | direct waits =>
    rw [blocks] at waits
    obtain ⟨first, further, rfl, -, outer⟩ := waits.of_cons kind
    cases run
    exact .direct (outer.turn turn (blocks ▸ suffix_cons _ _) (suffix_refl _))
  | @collecting _ _ _ inner outer d open' kind' collected waits =>
    cases inner with
    | nil => cases run
    | cons b' inner =>
      cases run
      have stays : s'.blocks = inner ++ d :: outer :=
        (List.cons.inj (blocks.symm.trans open')).2
      refine collect turn open' stays kind' collected waits fun w hw => ?_
      exact ⟨n, .inl (mem_singleton.mp hw)⟩

theorem returns (blocks : s'.blocks = s.blocks)
    (run : a.after? replay (.returns ⟨n, s, h⟩) = some a') : Holds s' h' a' := by
  cases holds with
  | direct waits =>
    cases run
    refine .direct ?_
    rw [blocks]
    exact waits.turn turn (suffix_refl _) (blocks ▸ suffix_refl _)
  | collecting => cases run

theorem defers (blocks : s'.blocks = d :: s.blocks) (kind : d.kind = .deferred)
    (run : a.after? replay .defers = some a') : Holds s' h' a' := by
  cases holds with
  | @direct groups _ waits =>
    have outer : s.blocks <:+ s'.blocks := blocks ▸ suffix_cons _ _
    have waits' := waits.turn turn (suffix_refl _) outer
    cases groups with
    | nil => cases run
    | cons first further =>
      cases run
      have stays : s'.blocks = [] ++ d :: s.blocks := blocks
      exact .collecting stays kind (forall_mem_nil _) waits'
  | collecting => cases run

theorem collects (blocks : s.blocks = d :: s'.blocks) (kind : d.kind = .deferred)
    (run : a.after? replay .collects = some a') : Holds s' h' a' := by
  cases holds with
  | @direct groups => cases groups <;> cases run
  | @collecting groups group _ inner outer d' open' _ collected waits =>
    cases inner with
    | cons => cases run
    | nil =>
      obtain ⟨rfl, rfl⟩ := List.cons.inj (blocks.symm.trans open')
      -- The group now waits in the innermost block, which is one of a function.
      have nesting := turn.nested.nesting
      rw [blocks] at nesting
      obtain ⟨f, -, outside, -⟩ := nesting.close_deferred kind
      obtain ⟨b, rest, hblocks, holds⟩ := outside.schedules_head
      have inside : s.function ≠ none := turn.inside_of_deferred (by simp [blocks]) kind
      have outer : s'.blocks <:+ s.blocks := blocks ▸ suffix_cons _ _
      have waits' := waits.turn turn outer (suffix_refl _)
      rw [hblocks] at waits'
      obtain ⟨first, further, rfl, here, waiting⟩ := waits'.of_cons holds
      cases run
      refine .direct ?_
      rw [hblocks]
      refine .here holds (fun w hw => ?_) waiting
      rcases mem_append.mp hw with new | old
      · exact hblocks ▸ (collected w new).turn turn inside outer (suffix_refl _)
      · exact here w old

end

theorem tells (turn : Turn s h s' h') (holds : Holds s h a) (tells : Tells settings s es s')
    (run : a.run? replay (es.map (Event.written s h s' h')) = some a') : Holds s' h' a' := by
  -- A single event.
  have one : ∀ {e : Event Written}, a.run? replay [e] = some a' → a.after? replay e = some a' := by
    intro e run
    obtain ⟨a₁, after, rest⟩ := Option.bind_eq_some_iff.mp run
    cases rest
    exact after
  cases tells with
  | lists ns _ _ _ blocks => exact holds.lists turn blocks run
  | opens n _ _ _ blocks kind => exact holds.opens turn blocks kind (one run)
  | closes t scope blocks kind =>
    exact holds.closes turn (blocks.trans (by rw [closed_blocks])) kind (one run)
  | returns t value => exact holds.returns turn (by simp) (one run)
  | defers _ _ _ _ blocks kind => exact holds.defers turn blocks kind (one run)
  | collects _ _ blocks kind => exact holds.collects turn blocks kind (one run)

theorem replays (holds : Holds s h a) (tells : Tells settings s es s') (replays : Agenda.Replays replay w m a (es.map (Event.written s h s' h'))) :
    ∃ around, around <:+ m.state.blocks ∧ w.DeferredIn around m.state m.history := by
  -- Only the ends of blocks and returns run anything, and their nodes are read before the change.
  have waits : ∀ {e : Event Written}, Agenda.Replays replay w m a [e] →
      ∃ around, around <:+ s.blocks ∧ w.DeferredIn around s h := by
    intro e replays
    cases replays with
    | here after listed mem =>
      obtain ⟨-, direct, waited⟩ := Agenda.waited_of_after after listed mem
      cases holds with
      | direct waits => exact waits.deferredIn w waited
      | collecting => cases direct
    | later _ h => cases h
  have event := replays.event
  cases tells with
  | lists ns | opens | defers | collects => simp [Event.written] at event
  | closes t scope blocks kind | returns t value =>
    obtain rfl : m = ⟨_, s, h⟩ := by simpa [Event.written] using event
    exact waits replays

end Holds

theorem Chronicle.replays (chronicle : Chronicle settings s h log s' h')
    (nested : s.Nested) (declared : s.DeclaredBy h)
    (holds : Holds s h a) (run : a.run? replay log = some a') : Holds s' h' a' ∧
      ∀ w m, Agenda.Replays replay w m a log →
        ∃ around, around <:+ m.state.blocks ∧ w.DeferredIn around m.state m.history := by
  induction chronicle generalizing a a' with
  | refl =>
    cases run
    refine ⟨holds, fun w m replays => ?_⟩
    cases replays
  | @step s s₁ s₂ h h₁ h₂ log es earlier change after inside tells told ih =>
    rw [Agenda.run?_append] at run
    obtain ⟨a₁, before, now⟩ := Option.bind_eq_some_iff.mp run
    obtain ⟨holds₁, replayed⟩ := ih nested declared holds before
    have nested₁ := nested.steps earlier.steps
    have declared₁ := earlier.run.declaredBy declared
    have turn : Turn s₁ h₁ s₂ h₂ := {
      nested := nested₁
      after := after
      frames := declared₁.frames_length nested₁
      frames' := (after.declaredBy declared₁).frames_length (nested₁.step change)
      globals := fun inFunction => ⟨change.globals_eq nested₁ inFunction, inside inFunction⟩ }
    refine ⟨holds₁.tells turn tells now, fun w m replays => ?_⟩
    rcases replays.of_append before with old | new
    · exact replayed w m old
    · exact holds₁.replays tells new
  | @imports s s₁ c h h₁ hc t last source merged log inner earlier bottom _ _ done _ _ ih ihInside =>
    rw [Agenda.run?_append] at run
    obtain ⟨a₁, before, now⟩ := Option.bind_eq_some_iff.mp run
    obtain ⟨holds₁, replayed⟩ := ih nested declared holds before
    obtain ⟨a₂, first, during⟩ := Option.bind_eq_some_iff.mp now
    rw [holds₁.of_blocks_nil bottom] at first
    cases first
    -- The imported file begins with nothing open, and ends so.
    have start : Holds ((s₁.noted t source).child source last) h₁.inChild
        ⟨[], none, a₁.listed ++ [⟨.plain t (.source source.path), s₁, h₁⟩]⟩ := .direct .nil
    have child := (earlier.run.declaredBy declared).child t source last
    obtain ⟨holds₂, replayedInside⟩ := ihInside (.child ..) child start during
    refine ⟨?_, fun w m replays => ?_⟩
    · rw [holds₂.of_blocks_nil done]
      have closed : ((s₁.noted t source).absorbed c merged).blocks = [] := by
        simpa [State.absorbed, State.noted] using bottom
      refine .direct ?_
      rw [closed]
      exact .nil
    · rcases replays.of_append before with old | new
      · exact replayed w m old
      · cases new with
        | here after listed mem =>
          rcases (Agenda.waited_of_after after listed mem).1 with lists | lists <;> cases lists
        | later after new =>
          rw [holds₁.of_blocks_nil bottom] at after
          cases after
          exact replayedInside w m new

end State

/-- The declaration in the frames that a name leads to, followed by those around it. There is none if no declaration in
the frames brings a variable of the name, and then the name stands for a global variable. -/
def History.leads (h : History) (name : String) : List Declaration :=
  h.frames.flatten.dropWhile fun d => (d.find? name).isNone

section Names

variable {s s' : State} {h h' : History} {inner newer outer : List (List Declaration)} (before : h.frames = inner ++ own :: outer)
  (now : h'.frames = newer ++ (added ++ own) :: outer) (free : ∀ d ∈ inner.flatten, d.find? name = none)

include before now free

end Names

end Impulse
