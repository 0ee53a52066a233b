import Impulse.Node

/-!
# Deferred statements

Statements of a `defer` block are kept as a group until the block around it is closed. Groups are kept
with the depth of that block, in the order they were deferred.
-/

namespace Impulse

/-- Deferred groups with the depths of their blocks, and the group that is being collected. -/
structure Deferral where
  recording : Option (List Node) := none
  groups : List (Nat × List Node) := []

namespace Deferral

def isRecording (d : Deferral) : Bool :=
  d.recording.isSome

def start (d : Deferral) : Deferral :=
  { d with recording := some [] }

/-- Ends a group that was deferred in a block of the given depth. An empty group is dropped. -/
def finish (d : Deferral) (depth : Nat) : Deferral :=
  match d.recording with
  | some (n :: ns) => { recording := none, groups := d.groups ++ [(depth, n :: ns)] }
  | _ => { d with recording := none }

/-- The statements of the groups of a depth, the group that was deferred last first. -/
def statementsAt (d : Deferral) (depth : Nat) : List Node :=
  ((d.groups.filter (·.1 == depth)).reverse.map (·.2)).flatten

def without (d : Deferral) (depth : Nat) : Deferral :=
  { d with groups := d.groups.filter (·.1 != depth) }

def below (d : Deferral) (depth : Nat) : Deferral :=
  { d with groups := d.groups.filter (·.1 < depth) }

/-- The statements of all groups from a depth down to the depth `bottom`. -/
def pending (d : Deferral) (depth bottom : Nat) : List Node :=
  (List.range (depth + 1 - bottom)).flatMap fun i => d.statementsAt (depth - i)

end Deferral

end Impulse
