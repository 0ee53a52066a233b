import Impulse.FileSystem
import Impulse.Library.Standard
import Impulse.Text.Digest
import Impulse.Text.Path
import Impulse.Text.Quoted

/-!
# The cache of the standard tree

The standard tree is written to `std/<digest>` in a cache directory, where the digest is taken over all its
paths and texts. A marker file that holds the digest is written last and tells that the tree is complete;
without it the tree is removed and written again.
-/

namespace Impulse.Standard

/-- The digest of the tree, in sixteen hexadecimal digits. -/
def digestName : String :=
  Text.hex 16 (Text.digestText
    (String.join (files.map fun file => "std/" ++ file.1 ++ file.2))).toNat

/-- Why the tree cannot be put into the cache. -/
inductive CacheProblem
  /-- The directory of the cache cannot be made. -/
  | noDirectory (path : String) (problem : FileProblem)
  /-- The lock file cannot be opened. -/
  | noLock (path : String) (problem : FileProblem)
  /-- A directory of the tree cannot be made. -/
  | noTree (path : String) (problem : FileProblem)
  /-- A file of the tree cannot be written. -/
  | noFile (path : String) (problem : FileProblem)
  /-- The marker cannot be written. -/
  | noMarker (path : String) (problem : FileProblem)

def CacheProblem.message : CacheProblem → String
  | noDirectory path e => "create std cache: " ++ e.makeText path
  | noLock path e => "acquire std lock: " ++ e.openText path
  | noTree path e => e.makeText path
  | noFile path e => e.openText path
  | noMarker path e => "write hash file: " ++ e.openText path

/-- The directory below the cache that holds the trees. -/
def cacheRoot (cache : String) : String :=
  Text.Path.join [cache, "std"]

def cacheTree (cache : String) : String :=
  Text.Path.join [cacheRoot cache, digestName]

def lockPath (cache : String) : String :=
  Text.Path.join [cacheRoot cache, ".lock"]

def markerPath (cache : String) : String :=
  Text.Path.join [cacheTree cache, ".hash"]

/-- Computations on the files of a cache. What was done before a problem stays done. -/
abbrev Caching := EStateM CacheProblem FileSystem

/-- Makes a directory and the directories above it. `cause` tells what could not be made. -/
def makeDirectories (cause : String → FileProblem → CacheProblem) (path : String) : Caching Unit :=
  fun fs =>
    match fs.makeDirectories path with
    | (fs, none) => .ok () fs
    | (fs, some (path, e)) => .error (cause path e) fs

/-- Writes a file. `cause` tells what could not be written. -/
def writeFile (cause : String → FileProblem → CacheProblem) (path text : String) : Caching Unit :=
  fun fs =>
    match fs.write path text with
    | .ok fs => .ok () fs
    | .error e => .error (cause path e) fs

def writeFiles (tree : String) : List (String × String) → Caching Unit
  | [] => pure ()
  | (name, text) :: rest => do
    writeFile .noFile (Text.Path.join [tree, name]) text
    writeFiles tree rest

/-- Opens the lock file, which is made if it is missing. -/
def lock (path : String) : Caching Unit := do
  match (← get).read path with
  | .ok _ => return
  | .error _ => writeFile .noLock path ""

/-- Writes the whole tree anew: what is there is removed, and the marker comes last. -/
def install (cache : String) : Caching Unit := do
  let tree := cacheTree cache
  modify (·.removeTree tree)
  makeDirectories .noTree tree
  makeDirectories .noTree (Text.Path.join [tree, lead])
  writeFiles tree files
  writeFile .noMarker (markerPath cache) digestName

/-- Whether the marker tells that the tree is complete. -/
def isComplete (fs : FileSystem) (cache : String) : Bool :=
  match fs.read (markerPath cache) with
  | .ok text => text == digestName
  | .error _ => false

/-- Makes sure that the tree is in the cache, and gives its directory. -/
def materialize (cache : String) : Caching String := do
  modify fun fs => (fs.ask (lockPath cache)).ask (markerPath cache)
  makeDirectories .noDirectory (cacheRoot cache)
  lock (lockPath cache)
  if !isComplete (← get) cache then install cache
  return cacheTree cache

end Impulse.Standard
