import Impulse.Text.Split

/-!
# File systems

A tree of files and directories, kept as the list of its items with their locations. A location is the
list of names that leads from the root to an item. Every change is an `Effect`, and a file system
remembers the effects performed on it in order; it also remembers the locations that were looked at, so
that a caller who holds only a part of a tree can supply the rest.

## Design notes

A path is followed from left to right, and the first part that cannot be followed decides the problem: what
a part is looked up in must be a directory before the length of the part matters. An operation that makes
one item changes nothing if it fails; one that makes several keeps what it made before the problem.
-/

namespace Impulse

abbrev Location := List String

/-- A file with its text, or a directory. -/
inductive FileItem
  | file (text : String)
  | directory
  deriving DecidableEq, Repr

inductive FileProblem
  | missing
  | notDirectory
  | isDirectory
  | alreadyThere
  /-- A name or a whole path has too many bytes. -/
  | nameTooLong
  /-- The path holds a character that no path may hold. -/
  | invalidPath
  deriving DecidableEq, Repr

def FileProblem.text : FileProblem → String
  | missing => "no such file or directory"
  | notDirectory => "not a directory"
  | isDirectory => "is a directory"
  | alreadyThere => "file exists"
  | nameTooLong => "file name too long"
  | invalidPath => "invalid argument"

def nameLimit : Nat :=
  255

def pathLimit : Nat :=
  4096

/-- What rules a path out before anything is looked at: a zero character, no character at all, or too many
bytes. -/
def FileProblem.ofPath? (path : String) : Option FileProblem :=
  if Text.contains path '\x00' then some invalidPath
  else if path = "" then some missing
  else if pathLimit ≤ path.utf8ByteSize then some nameTooLong
  else none

/-- The wording when a file cannot be read. A directory can be opened, and only then fails to be read. -/
def FileProblem.readText (path : String) : FileProblem → String
  | isDirectory => "read " ++ path ++ ": " ++ isDirectory.text
  | e => "open " ++ path ++ ": " ++ e.text

def FileProblem.openText (path : String) (e : FileProblem) : String :=
  "open " ++ path ++ ": " ++ e.text

def FileProblem.makeText (path : String) (e : FileProblem) : String :=
  "mkdir " ++ path ++ ": " ++ e.text

inductive Effect
  | makeDirectory (location : Location)
  | write (location : Location) (text : String)
  /-- Removes an item and everything below it. -/
  | removeTree (location : Location)
  deriving DecidableEq, Repr

/-- A file system. Items that are not listed do not exist. -/
structure FileSystem where
  items : List (Location × FileItem) := []
  /-- Where relative paths start. -/
  workingDirectory : Location := []
  /-- The effects performed so far. -/
  effects : List Effect := []
  /-- The locations that were looked at. -/
  asked : List Location := []

namespace FileSystem

def item? (fs : FileSystem) (location : Location) : Option FileItem :=
  if location = [] then some .directory
  else (fs.items.find? (·.1 == location)).map (·.2)

def setItem (items : List (Location × FileItem)) (location : Location) (item : FileItem) :
    List (Location × FileItem) :=
  items.filter (·.1 != location) ++ [(location, item)]

def applyEffect : Effect → List (Location × FileItem) → List (Location × FileItem)
  | .makeDirectory location, items => setItem items location .directory
  | .write location text, items => setItem items location (.file text)
  | .removeTree location, items => items.filter fun e => !location.isPrefixOf e.1

def perform (fs : FileSystem) (e : Effect) : FileSystem :=
  { fs with items := applyEffect e fs.items, effects := fs.effects ++ [e] }

/-- Follows the parts of a path from a location. Every part but the last must be a directory, and no name
may be too long. -/
def follow (fs : FileSystem) (location : Location) : List String → Except FileProblem Location
  | [] => .ok location
  | part :: parts =>
    match fs.item? location with
    | none => .error .missing
    | some (.file _) => .error .notDirectory
    | some .directory =>
      if part = "" || part = "." then fs.follow location parts
      else if part = ".." then fs.follow location.dropLast parts
      else if nameLimit < part.utf8ByteSize then .error .nameTooLong
      else fs.follow (location ++ [part]) parts

def start (fs : FileSystem) (path : String) : Location :=
  if Text.startsWith path "/" then [] else fs.workingDirectory

/-- The location a path names. Nothing needs to be there, but its directory must be. -/
def locate (fs : FileSystem) (path : String) : Except FileProblem Location :=
  match FileProblem.ofPath? path with
  | some e => .error e
  | none => fs.follow (fs.start path) (Text.splitOn '/' path)

/-- The location a path names if all its parts are directories, for the record of what was looked at. -/
def literalLocation (fs : FileSystem) (path : String) : Location :=
  (Text.splitOn '/' path).foldl (fun location part =>
    if part = "" || part = "." then location
    else if part = ".." then location.dropLast
    else location ++ [part]) (fs.start path)

def ask (fs : FileSystem) (path : String) : FileSystem :=
  { fs with asked := fs.asked ++ [fs.literalLocation path] }

def lookup (fs : FileSystem) (path : String) : Except FileProblem FileItem :=
  match fs.locate path with
  | .error e => .error e
  | .ok location =>
    match fs.item? location with
    | none => .error .missing
    | some item => .ok item

def read (fs : FileSystem) (path : String) : Except FileProblem String :=
  match fs.lookup path with
  | .error e => .error e
  | .ok .directory => .error .isDirectory
  | .ok (.file text) => .ok text

def write (fs : FileSystem) (path text : String) : Except FileProblem FileSystem :=
  match fs.locate path with
  | .error e => .error e
  | .ok location =>
    match fs.item? location with
    | some .directory => .error .isDirectory
    | _ => .ok (fs.perform (.write location text))

/-- Removes what a path names, with everything below it. What is not there needs no removal. -/
def removeTree (fs : FileSystem) (path : String) : FileSystem :=
  match fs.locate path with
  | .error _ => fs
  | .ok location => fs.perform (.removeTree location)

/-- Makes a directory. The directory above it must be there, and nothing may stand in its place. Slashes
behind its name do not matter. -/
def makeDirectory (fs : FileSystem) (path : String) : Except FileProblem FileSystem :=
  let parts := ((Text.splitOn '/' path).reverse.dropWhile (· == "")).reverse
  match FileProblem.ofPath? path with
  | some e => .error e
  | none =>
    match fs.follow (fs.start path) parts with
    | .error e => .error e
    | .ok location =>
      if (fs.item? location).isSome then .error .alreadyThere
      else .ok (fs.perform (.makeDirectory location))

/-- Makes sure that a path names a directory. Only its last part is made. -/
def ensureDirectory (fs : FileSystem) (path : String) : Except FileProblem FileSystem :=
  match fs.lookup path with
  | .ok .directory => .ok fs
  | .ok (.file _) => .error .notDirectory
  | .error _ => fs.makeDirectory path

/-- Makes sure that some paths name directories, in order. The first problem is told with its path, and what
was made before it stays. -/
def ensureAll (fs : FileSystem) : List String → FileSystem × Option (String × FileProblem)
  | [] => (fs, none)
  | path :: paths =>
    match fs.ensureDirectory path with
    | .error e => (fs, some (path, e))
    | .ok fs => fs.ensureAll paths

/-- The paths of the directories above a path, outermost first, each with the slashes behind it. -/
def pathsAbove (path : String) : List String :=
  let parts := Text.splitOn '/' path
  (List.range parts.length).filterMap fun n =>
    if n = 0 || parts.getD n "" = "" then none
    else some ("/".intercalate (parts.take n) ++ "/")

def makeDirectories (fs : FileSystem) (path : String) : FileSystem × Option (String × FileProblem) :=
  fs.ensureAll (pathsAbove path ++ [path])

def filesBelow (fs : FileSystem) (location : Location) : List (Location × String) :=
  fs.items.filterMap fun (here, item) =>
    match item with
    | .directory => none
    | .file text => if location.isPrefixOf here then some (here.drop location.length, text) else none

/-- The locations from the root's child down to the given location itself. -/
def downTo (location : Location) : List Location :=
  (List.range location.length).map fun n => location.take (n + 1)

/-- Writes a file and makes the directories above it that are missing. -/
def put (fs : FileSystem) (path text : String) : FileSystem :=
  let location := fs.literalLocation path
  let fs := (downTo location.dropLast).foldl (fun fs here =>
    if (fs.item? here).isSome then fs else fs.perform (.makeDirectory here)) fs
  fs.perform (.write location text)

/-- A file system with the given files in its working directory. -/
def ofFiles (workingDirectory : Location) (files : List (String × String)) : FileSystem :=
  let directories := (downTo workingDirectory).map fun here => (here, FileItem.directory)
  let fs : FileSystem := { items := directories, workingDirectory := workingDirectory }
  { files.foldl (fun fs file => fs.put file.1 file.2) fs with effects := [] }

end FileSystem

end Impulse
