import Impulse.Flag.Help
import Impulse.Reading
import Impulse.Settings.Environment
import Impulse.Settings.Options

/-!
# The compiler as a command

What the command does with its arguments, its environment and its files. It reads one program, reports
what is wrong with it and, if asked to, lists what it found.
-/

namespace Impulse.Compiler

structure Outcome where
  exit : Nat := 0
  stdout : String := ""
  stderr : String := ""
  files : FileSystem

def flags : List Flag :=
  [.ofText "output" "o" "" "Write the dump into <file> instead of stdout." "file",
   Settings.targetFlag,
   .ofSwitch "dump" "d" false "Dump the parsed Program.",
   .ofSwitch "quiet" "q" false "Do not print progress messages.",
   .ofList "include" "I" [] "Add a directory to the import search path." "path",
   Settings.profileFlag,
   Settings.pedanticFlag]

def command : Except Flag.Misuse Command := do
  let fs ← Settings.addSwitches (← Flags.defineAll {} flags)
  return {
    name := "impc"
    synopsis := "[options] <input.imp>"
    description := "The impulse front end: parses, resolves and type-checks an impulse program "
      ++ "into its C-ready intermediate form."
    authors := ["xplshn"]
    repository := "<https://github.com/xplshn/impc>"
    flags := fs }

/-- The run ends with an error that points at no file. `before` is what was printed until then. -/
def failure (color : Bool) (files : FileSystem) (before message : String) : Outcome :=
  { exit := 1, stderr := before ++ Report.error color [] {} message, files := files }

/-- Writes the listing to the output file, or to the standard output if none is named. -/
def writeDump (files : FileSystem) (stderr output text : String) : Outcome :=
  if output = "" then { stdout := text, stderr := stderr, files := files }
  else
    let files := files.ask output
    match files.write output text with
    | .ok files => { stderr := stderr, files := files }
    | .error _ => { exit := 1, stderr := stderr, files := files }

def summary (c : Compilation) : String :=
  "Parsed " ++ toString c.program.length ++ " entries: " ++ toString c.context.functions.size
    ++ " functions, " ++ toString c.context.structs.size ++ " structs, "
    ++ toString c.context.enums.size ++ " enums, " ++ toString c.context.globals.size
    ++ " globals.\n"

def filesOf (files : FileSystem) : Library → FileSystem
  | .disk d => d.files
  | .memory _ => files

/-- Reads the program in the file `path` and lists it if asked to. -/
def readProgram (s : Settings) (fs : Flags) (files : FileSystem) (before path : String) : Outcome :=
  let files := files.ask path
  match files.read path with
  | .error e =>
    failure s.color files before ("could not read file '" ++ path ++ "': " ++ e.readText path)
  | .ok text =>
    let progress (line : String) : String := if fs.isOn "quiet" then "" else line
    let before := before ++ progress ("Parsing '" ++ path ++ "' (std " ++ s.profile ++ ", target "
      ++ s.target ++ ")...\n")
    let c := compile s (Library.ofSettings s files) path text
    let files := filesOf files c.session.library
    let printed := before ++ c.output s
    if c.stop.isSome then { exit := 1, stderr := printed, files := files }
    else
      let printed := printed ++ progress (summary c)
      if fs.isOn "dump" then writeDump files printed (fs.textOf "output") c.program.flat.dump
      else { stderr := printed, files := files }

/-- What the command does with its positional arguments. -/
def act (s : Settings) (fs : Flags) (files : FileSystem) (args : List String) : Outcome :=
  match s.configure fs with
  | .error message => failure s.color files "" message
  | .ok s =>
    let (s, warning) := s.setTarget "linux" "amd64" (fs.textOf "target")
    let s := { s with includePaths := fs.listOf "include" ++ s.includePaths }
    match args with
    | [path] => readProgram s fs files warning path
    | _ =>
      failure s.color files warning
        ("expected exactly one input file, got " ++ toString args.length)

def run (env : Environment) (files : FileSystem) (args : List String) : Outcome :=
  match command.bind fun c => c.request args with
  | .error misuse => { exit := 2, stderr := misuse.message ++ "\n", files := files }
  | .ok (_, .refused _ text) => { exit := 1, stderr := text, files := files }
  | .ok (_, .help page) => { stdout := page, files := files }
  | .ok (parsed, .act args) => act (Settings.ofEnvironment env) parsed.flags files args

end Impulse.Compiler
