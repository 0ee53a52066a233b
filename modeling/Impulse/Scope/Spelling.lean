import Impulse.Scope
import Impulse.Text.Split

/-!
# The spelling of access paths

A path is written with points throughout: `q.x`. Its fields are declared with `->` behind every pointer:
`q->x`. The spelling of a path is found from left to right, asking of each part in front whether it is
a pointer.
-/

namespace Impulse

def linkSign (lookup : String → Option Variable) (path : String) : String :=
  match lookup path with
  | some v => if v.ty.isPointer then "->" else "."
  | none => "."

/-- The spelling under which the path `name` is declared. A name that is known as it stands keeps the
name of its variable, and unknown parts keep their points. -/
def spelling (lookup : String → Option Variable) (name : String) : String :=
  if !Text.contains name '.' then name
  else match lookup name with
    | some v => v.name
    | none =>
      match Text.splitOn '.' name with
      | [] => name
      | first :: parts =>
        parts.foldl (fun path part => path ++ linkSign lookup path ++ part) first

end Impulse
