import Impulse.Text.Split

/-!
# Slash-separated paths

Paths are texts. Cleaning a path removes empty and `.` parts and resolves `..` against the part before
it, without looking at any file system.
-/

namespace Impulse.Text.Path

/-- Adds one part to the cleaned parts in front of it, which are given last part first. In an absolute
path nothing lies above the root. -/
def addPart (absolute : Bool) (before : List String) (part : String) : List String :=
  if part = "" || part = "." then before
  else if part = ".." then
    match before with
    | [] => if absolute then [] else [".."]
    | last :: rest => if last = ".." then ".." :: before else rest
  else part :: before

def isAbsolute (path : String) : Bool :=
  startsWith path "/"

def cleanParts (path : String) : List String :=
  ((splitOn '/' path).foldl (addPart (isAbsolute path)) []).reverse

/-- The shortest path with the same meaning. The empty path means `.`. -/
def clean (path : String) : String :=
  let body := "/".intercalate (cleanParts path)
  if isAbsolute path then "/" ++ body
  else if body = "" then "." else body

/-- The parts joined with slashes and cleaned, from the first part on that is not empty. -/
def join : List String → String
  | [] => ""
  | part :: rest => if part = "" then join rest else clean ("/".intercalate (part :: rest))

/-- The cleaned path of the directory that holds `path`. -/
def directory (path : String) : String :=
  match cutLast? '/' path with
  | none => "."
  | some (before, _) => clean (before ++ "/")

end Impulse.Text.Path
