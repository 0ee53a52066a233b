import Impulse.Library.Cache
import Impulse.Settings

/-!
# Libraries

Where imported files come from. A library in memory knows its files by their paths and falls back to the
standard tree; a library on disk looks next to the importing file and then along the include paths, and
takes the standard tree from its cache. Files are told apart by a key, the digest of their cleaned path.
-/

namespace Impulse

def sourceKey (path : String) : UInt64 :=
  Text.digestText (Text.Path.clean path)

/-- Whether a path names a header, which is handed on and never read. -/
def isHeader (path : String) : Bool :=
  Text.endsWith path ".h"

structure Source where
  path : String
  text : String

def Source.key (s : Source) : UInt64 :=
  sourceKey s.path

inductive LoadProblem
  /-- No file in memory has the path. -/
  | unknown (path : String)
  /-- None of the candidates exists. -/
  | notFound (path : String) (searched : List String)
  /-- A candidate exists and cannot be read. -/
  | unreadable (path : String) (problem : FileProblem)
  /-- The standard tree is not at hand. -/
  | noStandard (problem : Standard.CacheProblem)

namespace LoadProblem

def message : LoadProblem → String
  | unknown path => path ++ ": no such module"
  | notFound path searched =>
    path ++ " (searched " ++ ", ".intercalate searched ++ "): no such module"
  | unreadable path e => "read " ++ path ++ ": " ++ e.readText path
  | noStandard e => e.message

def isNotFound : LoadProblem → Bool
  | unknown _ | notFound _ _ => true
  | _ => false

end LoadProblem

/-- A library on disk. `stdRoot` is where the standard tree lies, or nothing if that is not known yet. -/
structure Disk where
  files : FileSystem
  includePaths : List String := []
  cacheDir : String := ""
  stdRoot : String := ""

namespace Disk

def isStandard (path : String) : Bool :=
  Text.startsWith path Standard.lead

/-- Where the standard tree lies. It is put into the cache the first time it is needed, and the disk keeps
what was done there also if that fails. -/
def withStandard (d : Disk) : Except Standard.CacheProblem String × Disk :=
  if d.stdRoot ≠ "" then (.ok d.stdRoot, d)
  else match Standard.materialize d.cacheDir d.files with
    | .error e files => (.error e, { d with files := files })
    | .ok root files => (.ok root, { d with files := files, stdRoot := root })

/-- The places a file outside the standard tree may be. -/
def candidates (d : Disk) (importer path : String) : List String :=
  if Text.Path.isAbsolute path then [path]
  else Text.Path.join [Text.Path.directory importer, path]
    :: d.includePaths.map fun dir => Text.Path.join [dir, path]

def firstOf (files : FileSystem) : List String → Except (String × FileProblem) (Option (String × String))
  | [] => .ok none
  | c :: cs =>
    match files.read c with
    | .ok text => .ok (some (c, text))
    | .error .missing => firstOf files cs
    | .error e => .error (c, e)

/-- The same library after the candidates were looked at. -/
def ask (d : Disk) (candidates : List String) : Disk :=
  { d with files := candidates.foldl FileSystem.ask d.files }

/-- The file an import names. A file of the standard tree keeps its own name wherever the tree lies. -/
def load (d : Disk) (importer path : String) : Except LoadProblem Source × Disk :=
  let found (d : Disk) (candidates : List String) (name : String → String) :
      Except LoadProblem Source × Disk :=
    let d := d.ask candidates
    match firstOf d.files candidates with
    | .error (c, e) => (.error (.unreadable c e), d)
    | .ok none => (.error (.notFound path candidates), d)
    | .ok (some (c, text)) => (.ok ⟨name c, text⟩, d)
  if isStandard path then
    match d.withStandard with
    | (.error e, d) => (.error (.noStandard e), d)
    | (.ok root, d) => found d [Text.Path.join [root, path]] fun _ => Text.Path.clean path
  else found d (d.candidates importer path) id

end Disk

inductive Library
  | memory (files : List (String × String))
  | disk (d : Disk)

namespace Library

/-- The file in memory an import names: relative to the importing file, then as it stands, then in the
standard tree. -/
def loadMemory (files : List (String × String)) (importer path : String) :
    Except LoadProblem Source :=
  let tries := [Text.Path.join [Text.Path.directory importer, path], Text.Path.clean path]
  match tries.findSome? fun p => files.find? (·.1 == p) with
  | some (p, text) => .ok ⟨p, text⟩
  | none =>
    match if Disk.isStandard path then Standard.find? path else none with
    | some text => .ok ⟨path, text⟩
    | none => .error (.unknown path)

/-- Finds the file an import names. The library may change: the standard tree can be put into its cache. -/
def load (l : Library) (importer path : String) : Except LoadProblem Source × Library :=
  match l with
  | memory files => (loadMemory files importer path, l)
  | disk d =>
    let (result, d) := d.load importer path
    (result, disk d)

/-- A number of paths that files can be loaded under, which bounds how deep imports nest. On disk the same file
has a path along each include path, and one for every number of steps above the working directory that a
path can hold. -/
def bound : Library → Nat
  | memory files => files.length + Standard.files.length
  | disk d => (d.files.items.length + Standard.files.length) * (d.includePaths.length + pathLimit)

def ofSettings (s : Settings) (files : FileSystem) : Library :=
  disk { files := files, includePaths := s.includePaths, cacheDir := s.cacheDir, stdRoot := s.stdRoot }

end Library

end Impulse
