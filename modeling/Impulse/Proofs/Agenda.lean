import Mathlib.Data.List.Count
import Mathlib.Tactic.Ring

/-!
# When deferred statements run

What `defer` means, said without depths: every open block of a function keeps the groups that were deferred in
it, the last one first. They run when the block is closed and, if returns run them too, in front of every return
before that, block by block from the innermost one. A group belongs to the block in which it is collected, so it
cannot run in another one.
-/

namespace Impulse

open List

/-- What is told to the schedule, with the node that belongs to it. -/
inductive Event (α : Type)
  /-- A node that is listed where it stands. -/
  | lists (n : α)
  /-- A node behind which a block is open. -/
  | opens (n : α)
  /-- The end of the innermost block. -/
  | closes (n : α)
  | returns (n : α)
  /-- A group of statements begins that is to run later. -/
  | defers
  /-- The group is complete. -/
  | collects
  deriving DecidableEq, Repr

/-- The schedule. Blocks are listed innermost first, with their groups, the last one first. A group that is being
collected comes with the number of blocks that are open in it. -/
structure Agenda (α : Type) where
  blocks : List (List (List α)) := []
  group : Option (Nat × List α) := none
  listed : List α := []
  deriving DecidableEq, Repr

namespace Agenda

/-- The schedule after an event, if it can happen. Where a group is collected, nothing runs, and neither a return
nor another group is possible. -/
def after? (replay : Bool) : Agenda α → Event α → Option (Agenda α)
  | ⟨blocks, none, listed⟩, .lists n => some ⟨blocks, none, listed ++ [n]⟩
  | ⟨blocks, none, listed⟩, .opens n => some ⟨[] :: blocks, none, listed ++ [n]⟩
  | ⟨groups :: blocks, none, listed⟩, .closes n =>
    some ⟨blocks, none, listed ++ (groups.flatten ++ [n])⟩
  | ⟨blocks, none, listed⟩, .returns n =>
    some ⟨blocks, none, listed ++ ((if replay then blocks.flatten.flatten else []) ++ [n])⟩
  | ⟨groups :: blocks, none, listed⟩, .defers => some ⟨groups :: blocks, some (0, []), listed⟩
  | ⟨blocks, some (inner, group), listed⟩, .lists n =>
    some ⟨blocks, some (inner, group ++ [n]), listed⟩
  | ⟨blocks, some (inner, group), listed⟩, .opens n =>
    some ⟨blocks, some (inner + 1, group ++ [n]), listed⟩
  | ⟨blocks, some (inner + 1, group), listed⟩, .closes n =>
    some ⟨blocks, some (inner, group ++ [n]), listed⟩
  | ⟨groups :: blocks, some (0, group), listed⟩, .collects =>
    some ⟨(group :: groups) :: blocks, none, listed⟩
  | _, _ => none

def run? (replay : Bool) : Agenda α → List (Event α) → Option (Agenda α)
  | a, [] => some a
  | a, e :: log => (a.after? replay e).bind (run? replay · log)

variable {a a' : Agenda α}

theorem run?_append (log log' : List (Event α)) :
    a.run? replay (log ++ log') = (a.run? replay log).bind (run? replay · log') := by
  induction log generalizing a with
  | nil => rfl
  | cons e log ih =>
    rw [cons_append, run?, run?, Option.bind_assoc]
    exact congrArg _ (funext fun a => ih)

theorem run?_lists_direct (blocks : List (List (List α))) (listed ns : List α) :
    run? replay ⟨blocks, none, listed⟩ (ns.map .lists) = some ⟨blocks, none, listed ++ ns⟩ := by
  induction ns generalizing listed with
  | nil => simp [run?]
  | cons n ns ih =>
    rw [map_cons, run?, after?, Option.bind_some, ih, append_assoc]
    rfl

theorem run?_lists_group (blocks : List (List (List α))) (inner : Nat) (group listed ns : List α) :
    run? replay ⟨blocks, some (inner, group), listed⟩ (ns.map .lists)
      = some ⟨blocks, some (inner, group ++ ns), listed⟩ := by
  induction ns generalizing group with
  | nil => simp [run?]
  | cons n ns ih =>
    rw [map_cons, run?, after?, Option.bind_some, ih, append_assoc]
    rfl

def behind (listed : List α) (a : Agenda α) : Agenda α :=
  { a with listed := listed ++ a.listed }

theorem after?_behind (listed : List α) (a : Agenda α) (e : Event α) :
    (a.behind listed).after? replay e = (a.after? replay e).map (behind listed) := by
  obtain ⟨blocks, group, old⟩ := a
  rcases blocks with - | ⟨groups, blocks⟩ <;> rcases group with - | ⟨- | inner, group⟩ <;>
    cases e <;> simp [after?, behind]

theorem run?_behind (listed : List α) (a : Agenda α) (log : List (Event α)) :
    (a.behind listed).run? replay log = (a.run? replay log).map (behind listed) := by
  induction log generalizing a with
  | nil => rfl
  | cons e log ih =>
    rw [run?, run?, after?_behind, Option.bind_map, Option.map_bind]
    exact congrArg _ (funext fun a => ih a)

end Agenda

def Event.map (f : α → β) : Event α → Event β
  | .lists n => .lists (f n)
  | .opens n => .opens (f n)
  | .closes n => .closes (f n)
  | .returns n => .returns (f n)
  | .defers => .defers
  | .collects => .collects

namespace Agenda

def map (f : α → β) (a : Agenda α) : Agenda β where
  blocks := a.blocks.map (·.map (·.map f))
  group := a.group.map fun g => (g.1, g.2.map f)
  listed := a.listed.map f

end Agenda

namespace Event

def node? : Event α → Option α
  | .lists n | .opens n | .closes n | .returns n => some n
  | .defers | .collects => none

def collectingAfter (before : Bool) : Event α → Bool
  | .defers => true
  | .collects => false
  | .lists _ | .opens _ | .closes _ | .returns _ => before

def collecting (log : List (Event α)) : Bool :=
  log.foldl collectingAfter false

def behindGroup : List (Event α) → List (Event α)
  | [] => []
  | .collects :: log => log
  | _ :: log => behindGroup log

/-- The number of returns before a block is closed, where `inner` blocks are open inside of it. -/
def returnsInside : Nat → List (Event α) → Nat
  | _, [] => 0
  | inner, .opens _ :: log => returnsInside (inner + 1) log
  | 0, .closes _ :: _ => 0
  | inner + 1, .closes _ :: log => returnsInside inner log
  | inner, .returns _ :: log => returnsInside inner log + 1
  | inner, .lists _ :: log => returnsInside inner log
  | inner, .defers :: log => returnsInside inner log
  | inner, .collects :: log => returnsInside inner log

/-- The number of times that a block runs what is deferred in it, where `inner` blocks are open inside of it: once
at its end and, if returns run it too, at each return before that. -/
def runs (replay : Bool) (log : List (Event α)) (inner : Nat) : Nat :=
  1 + if replay then returnsInside inner log else 0

section Runs

variable (replay : Bool) (n : α) (log : List (Event α)) (inner : Nat)

end Runs

/-- How often the node of the event at a place is listed: as often as its block runs it, if it is deferred, and
once otherwise. -/
def copies (replay : Bool) (log : List (Event α)) (i : Nat) : Nat :=
  match log[i]?.bind node? with
  | none => 0
  | some _ =>
    if collecting (log.take i) then runs replay (behindGroup (log.drop (i + 1))) 0 else 1

end Event

namespace Agenda

variable {a a' : Agenda α}

end Agenda

namespace Event

variable (f : α → β) (replay : Bool) (log : List (Event α))

end Event

end Impulse
