import Impulse.Node.Flat

/-!
# Programs

What reading a source file gives: the nodes of its statements in order, each with the file and the line
it comes from.
-/

namespace Impulse

/-- A node with the file and the line it comes from. -/
structure Entry where
  node : Node
  file : String
  line : Nat
  deriving Inhabited

def Entry.of (node : Node) (file : String) : Entry :=
  ⟨node, file, node.token.line⟩

abbrev Program := List Entry

namespace Program

def flat (p : Program) : Program :=
  p.map fun e => { e with node := e.node.flat }

def opens {α : Type} : Form α → Bool
  | .function _ | .branch _ _ _ _ | .switch _ | .arm _ _ _ | .loop _ _ _ _ | .iterate _ _ _ _
  | .blockStart | .structName _ | .enumName _ => true
  | _ => false

def closes {α : Type} : Form α → Bool
  | .blockEnd | .structEnd _ | .enumEnd _ => true
  | _ => false

def nodeOpens : Node → Bool
  | .absent => false
  | .node _ _ form => opens form

def nodeCloses : Node → Bool
  | .absent => false
  | .node _ _ form => closes form

/-- The lines of the listing from block depth `depth` on. A close at depth zero stays there. -/
def dumpLines (depth : Nat) : Program → List String
  | [] => []
  | e :: p =>
    let depth := if nodeCloses e.node then depth - 1 else depth
    let line := e.file ++ ":" ++ toString e.line ++ "\t" ++ Text.repeated "  " depth ++ e.node.text ++ "\n"
    line :: dumpLines (if nodeOpens e.node then depth + 1 else depth) p

def dump (p : Program) : String :=
  String.join (dumpLines 0 p)

end Program

end Impulse
