import Impulse.Flag
import Impulse.Text.Wrapped

/-!
# Help pages

The help page of a command: who made it, how it is called, its options in alphabetical order, and its
groups of switches. All sections share two columns. Widths are counted in bytes, while padding counts
characters.
-/

namespace Impulse

/-- A command with what its help page says about it. -/
structure Command where
  name : String
  synopsis : String := ""
  description : String := ""
  authors : List String := []
  repository : String := ""
  flags : Flags := {}

namespace Help

def pageWidth : Nat :=
  80

def indent : String :=
  "    "

/-- The widths of the flag column and of the usage column. -/
structure Columns where
  left : Nat
  usage : Nat

def flagText (f : Flag) : String :=
  let arg := if !f.isSwitch && f.expected != "" then " <" ++ f.expected ++ ">" else ""
  (if f.short = "" then "" else "-" ++ f.short ++ arg ++ ", ") ++ "--" ++ f.name ++ arg

/-- The characters in front of the switches of a group. -/
def groupLead (g : Flag.Group) : String :=
  match g.entries with
  | [] => ""
  | e :: _ => e.lead

def options (fs : Flags) : List Flag :=
  let grouped := fs.groups.flatMap fun g => g.entries.flatMap fun e => [e.onName, e.offName]
  (fs.flags.filter fun f => !grouped.contains f.name).mergeSort fun f g => f.name ≤ g.name

def columns (fs : Flags) : Columns :=
  let opts := options fs
  let lefts := opts.map (fun f => (flagText f).utf8ByteSize) ++ fs.groups.flatMap fun g =>
    ("-" ++ groupLead g ++ "no-<" ++ g.kind ++ ">").utf8ByteSize
      :: g.entries.map (·.name.utf8ByteSize)
  let usages := opts.map (·.usage.utf8ByteSize)
    ++ fs.groups.flatMap fun g => g.entries.map (·.usage.utf8ByteSize)
  ⟨lefts.foldl max 0, usages.foldl max 0⟩

/-- The lines of one entry: the flag, its usage in as many lines as it needs, and a mark at the end of the
first one. -/
def entry (c : Columns) (left usage right : String) : String :=
  let lead := indent ++ indent
  let room := max (pageWidth - lead.utf8ByteSize - c.left - 3 - right.utf8ByteSize) 10
  let lines := Text.wrap room usage
  let first := lines.headD ""
  let start := lead ++ Text.padRight c.left left ++ " "
  let line :=
    if right = "" then start ++ first ++ "\n"
    else start ++ Text.padRight (min c.usage room) first ++ "  " ++ right ++ "\n"
  let pad := lead ++ Text.repeated " " (c.left + 1)
  line ++ String.join ((lines.drop 1).map fun l => pad ++ l ++ "\n")

def optionSection (c : Columns) (opts : List Flag) : String :=
  if opts.isEmpty then ""
  else "\n" ++ indent ++ "Options\n" ++ String.join (opts.map fun f =>
    entry c (flagText f) f.usage
      (if !f.isSwitch && f.initial != "" then "|" ++ f.initial ++ "|" else ""))

def groupMark (fs : Flags) (e : Flag.GroupEntry) : String :=
  let on := e.enabled.isSome && fs.isOn e.onName
  let off := e.disabled.isSome && fs.isOn e.offName
  if on && !off then "|x|" else "|-|"

def groupSection (c : Columns) (fs : Flags) (g : Flag.Group) : String :=
  let lead := groupLead g
  "\n" ++ indent ++ g.name ++ "\n"
    ++ entry c ("-" ++ lead ++ "<" ++ g.kind ++ ">") ("Enable a specific " ++ g.kind) ""
    ++ entry c ("-" ++ lead ++ "no-<" ++ g.kind ++ ">") ("Disable a specific " ++ g.kind) ""
    ++ (if g.header = "" then "" else indent ++ g.header ++ "\n")
    ++ String.join ((g.entries.mergeSort fun e f => e.name ≤ f.name).map fun e =>
      entry c e.name e.usage (groupMark fs e))

end Help

namespace Command

open Help

/-- The help page of a command whose flags have the given values. -/
def help (c : Command) (fs : Flags) : String :=
  let cols := columns fs
  (if c.authors.isEmpty then ""
    else "\n" ++ indent ++ "Copyright (c): " ++ ", ".intercalate c.authors ++ " and contributors\n")
  ++ (if c.repository = "" then ""
    else indent ++ "For more details refer to " ++ c.repository ++ "\n")
  ++ (if c.synopsis = "" then ""
    else "\n" ++ indent ++ "Synopsis\n" ++ indent ++ indent ++ c.name ++ " " ++ c.synopsis ++ "\n")
  ++ (if c.description = "" then ""
    else "\n" ++ indent ++ "Description\n" ++ indent ++ indent ++ c.description ++ "\n")
  ++ optionSection cols (options fs)
  ++ String.join ((fs.groups.mergeSort fun g h => g.name ≤ h.name).map (groupSection cols fs))

inductive Request
  /-- The arguments cannot be read; the text tells why and how the command is called. -/
  | refused (problem : Flag.Problem) (text : String)
  /-- The help page is asked for. -/
  | help (page : String)
  /-- The command is to act on its positional arguments. -/
  | act (args : List String)

def helpFlag : Flag :=
  .ofSwitch "help" "h" false "Display this information"

/-- Reads the arguments of a command. The flags show the values that were set. -/
def request (c : Command) (args : List String) :
    Except Flag.Misuse (Flags.Parsed × Request) := do
  let fs ← c.flags.define helpFlag
  let parsed := fs.parse args
  match parsed.problem with
  | some e =>
    return (parsed, .refused e (c.name ++ ": " ++ e.message ++ "\nUsage: " ++ c.name ++ " "
      ++ c.synopsis ++ "\nRun '" ++ c.name ++ " --help' for all available options and flags.\n"))
  | none =>
    if parsed.flags.isOn "help" then return (parsed, .help (c.help parsed.flags))
    else return (parsed, .act parsed.args)

end Command

end Impulse
