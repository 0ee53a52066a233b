import Impulse.Compiler

/-!
# The command line

The compiler on real files. `Compiler.run` works on the part of the file system that is known; whenever it
looks at locations that are not, these are loaded and it runs again. Its effects are performed at the end.
-/

namespace Impulse.Main

def variableNames : List String :=
  ["IMPULSE_PATH", "IMPULSE_CACHE", "IMPULSE_STD", "NO_COLOR", "XDG_CACHE_HOME", "HOME", "TMPDIR"]

def environment : IO Environment :=
  variableNames.filterMapM fun name => do
    return (← IO.getEnv name).map fun value => (name, value)

def pathOf (location : Location) : String :=
  "/" ++ "/".intercalate location

/-- The text of some bytes. Bytes that are no text are replaced. -/
def decode (bytes : ByteArray) : String :=
  match String.fromUTF8? bytes with
  | some text => text
  | none => String.ofList (bytes.toList.map fun b =>
      if b < 128 then Char.ofNat b.toNat else Char.ofNat 0xFFFD)

def load? (location : Location) : IO (Option (Location × FileItem)) := do
  let path := (← IO.currentDir) / pathOf location
  if ← path.isDir then return some (location, .directory)
  else if ← path.pathExists then return some (location, .file (decode (← IO.FS.readBinFile path)))
  else return none

/-- Runs the compiler until it looks at nothing that is not known. `known` are the locations that were
loaded. -/
partial def settle (env : Environment) (args : List String) (files : FileSystem)
    (known : List Location) : IO Compiler.Outcome := do
  let outcome := Compiler.run env files args
  let wanted := (outcome.files.asked.flatMap FileSystem.downTo).eraseDups
  let unknown := wanted.filter fun location => !known.contains location
  if unknown.isEmpty then return outcome
  else
    let items ← unknown.filterMapM load?
    settle env args { files with items := files.items ++ items } (known ++ unknown)

def perform (e : Effect) : IO Unit := do
  let root ← IO.currentDir
  match e with
  | .makeDirectory location => IO.FS.createDirAll (root / pathOf location)
  | .write location text => IO.FS.writeFile (root / pathOf location) text
  | .removeTree location =>
    let path := root / pathOf location
    if ← path.isDir then IO.FS.removeDirAll path
    else if ← path.pathExists then IO.FS.removeFile path

def emptyFiles : IO FileSystem := do
  let parts := (Text.splitOn '/' (← IO.currentDir).toString).filter (· != "")
  return FileSystem.ofFiles parts []

end Impulse.Main

def main (args : List String) : IO UInt32 := do
  let files ← Impulse.Main.emptyFiles
  let known := Impulse.FileSystem.downTo files.workingDirectory
  let outcome ← Impulse.Main.settle (← Impulse.Main.environment) args files known
  outcome.files.effects.forM Impulse.Main.perform
  IO.print outcome.stdout
  IO.eprint outcome.stderr
  return outcome.exit.toUInt32
