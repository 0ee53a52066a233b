import Impulse.Text.Quoted
import Impulse.Text.Split

/-!
# Command line flags

A set of flags and the groups of switches among them. Arguments are read from left to right:
`--name`, `--name=value` and, for every flag, the same with one dash; `-x` and `-xvalue` for a flag with a
short name of one character. A flag that is no switch takes the next argument if no value is attached.
Everything else is a positional argument, and `--` makes all that follows positional.
-/

namespace Impulse

inductive Flag.Value
  | text (s : String)
  | switch (on : Bool)
  | list (items : List String)

def boolText (b : Bool) : String :=
  if b then "true" else "false"

def Flag.Value.display : Flag.Value → String
  | text s => s
  | switch on => boolText on
  | list items => ", ".intercalate items

/-- A flag. `initial` is the text of the value it starts with, and `expected` says what it takes. -/
structure Flag where
  name : String
  short : String := ""
  usage : String := ""
  value : Flag.Value
  initial : String
  expected : String := ""

namespace Flag

def isSwitch (f : Flag) : Bool :=
  match f.value with
  | .switch _ => true
  | _ => false

def ofText (name short initial usage expected : String) : Flag :=
  { name := name, short := short, usage := usage, value := .text initial, initial := initial,
    expected := expected }

def ofSwitch (name short : String) (initial : Bool) (usage : String) : Flag :=
  { name := name, short := short, usage := usage, value := .switch initial,
    initial := boolText initial }

def ofList (name short : String) (initial : List String) (usage expected : String) : Flag :=
  { name := name, short := short, usage := usage, value := .list initial,
    initial := ",".intercalate initial, expected := expected }

/-- One switch of a group: `lead ++ name` enables and `lead ++ "no-" ++ name` disables, unless left out.
`enabled` and `disabled` are what the two switches start with. -/
structure GroupEntry where
  name : String
  lead : String
  usage : String := ""
  enabled : Option Bool := some false
  disabled : Option Bool := some false

def GroupEntry.onName (e : GroupEntry) : String :=
  e.lead ++ e.name

def GroupEntry.offName (e : GroupEntry) : String :=
  e.lead ++ "no-" ++ e.name

/-- A group of switches with its headings for the help page. -/
structure Group where
  name : String
  description : String := ""
  kind : String := ""
  header : String := ""
  entries : List GroupEntry := []

inductive Problem
  | unknown (flag : String)
  | needsArgument (flag : String)
  | notBoolean (value : String)

def Problem.message : Problem → String
  | unknown flag => "unknown flag: " ++ flag
  | needsArgument flag => "flag needs an argument: " ++ flag
  | notBoolean value =>
    "invalid boolean value '" ++ value ++ "': strconv.ParseBool: parsing " ++ Text.quote value
      ++ ": invalid syntax"

inductive Misuse
  | emptyName
  | redefined (name : String)
  | shortRedefined (short : String)

def Misuse.message : Misuse → String
  | emptyName => "flag name cannot be empty"
  | redefined name => "flag redefined: " ++ name
  | shortRedefined short => "shorthand flag redefined: " ++ short

def bool? (s : String) : Option Bool :=
  if ["1", "t", "T", "TRUE", "true", "True"].contains s then some true
  else if ["0", "f", "F", "FALSE", "false", "False"].contains s then some false
  else none

/-- The flag after it is given a value. A switch without one is turned on, and a list grows. -/
def set (f : Flag) (s : String) : Except Problem Flag :=
  match f.value with
  | .text _ => .ok { f with value := .text s }
  | .list items => .ok { f with value := .list (items ++ [s]) }
  | .switch _ =>
    if s = "" then .ok { f with value := .switch true }
    else match bool? s with
      | some b => .ok { f with value := .switch b }
      | none => .error (.notBoolean s)

end Flag

/-- A set of flags in the order they were defined, with its groups. -/
structure Flags where
  flags : List Flag := []
  groups : List Flag.Group := []

/-- What reading arguments gives: the flags with their values and the positional arguments, both up to
the problem if there is one. -/
structure Flags.Parsed where
  flags : Flags
  args : List String
  problem : Option Flag.Problem := none

namespace Flags

open Impulse.Flag

def find? (fs : Flags) (name : String) : Option Flag :=
  fs.flags.find? (·.name == name)

def findShort? (fs : Flags) (c : Char) : Option Flag :=
  fs.flags.find? (·.short == c.toString)

def isOn (fs : Flags) (name : String) : Bool :=
  match fs.find? name with
  | some { value := .switch on, .. } => on
  | _ => false

def textOf (fs : Flags) (name : String) : String :=
  match fs.find? name with
  | some { value := .text s, .. } => s
  | _ => ""

def listOf (fs : Flags) (name : String) : List String :=
  match fs.find? name with
  | some { value := .list items, .. } => items
  | _ => []

/-- Adds a flag. Names and short names are unique, and no name is empty. -/
def define (fs : Flags) (f : Flag) : Except Misuse Flags :=
  if f.name = "" then .error .emptyName
  else if (fs.find? f.name).isSome then .error (.redefined f.name)
  else if f.short ≠ "" ∧ fs.flags.any (·.short == f.short) then .error (.shortRedefined f.short)
  else .ok { fs with flags := fs.flags ++ [f] }

def defineAll (fs : Flags) (new : List Flag) : Except Misuse Flags :=
  new.foldlM define fs

def entryFlags (e : GroupEntry) : List Flag :=
  (e.enabled.map fun b => ofSwitch e.onName "" b e.usage).toList
    ++ (e.disabled.map fun b => ofSwitch e.offName "" b ("Disable '" ++ e.name ++ "'")).toList

def addGroup (fs : Flags) (g : Group) : Except Misuse Flags := do
  let fs ← fs.defineAll (g.entries.flatMap entryFlags)
  return { fs with groups := fs.groups ++ [g] }

def set (fs : Flags) (f : Flag) (s : String) : Except Problem Flags :=
  match f.set s with
  | .error e => .error e
  | .ok new => .ok { fs with flags := fs.flags.map fun g => if g.name == f.name then new else g }

/-- Whether an argument is written like a flag. A single dash is positional. -/
def isFlagLike (arg : String) : Bool :=
  match arg.toList with
  | '-' :: _ :: _ => true
  | _ => false

def withoutDashes (arg : String) : String :=
  match arg.toList with
  | '-' :: '-' :: cs => String.ofList cs
  | '-' :: cs => String.ofList cs
  | cs => String.ofList cs

/-- The flag an argument names, how it is quoted when a value is missing, and the value attached to it. A
value behind a short name has no `=`. -/
def target (fs : Flags) (arg : String) : Except Problem (Flag × String × Option String) :=
  let body := withoutDashes arg
  let (name, value) :=
    match Text.cut? '=' body with
    | some (name, value) => (name, some value)
    | none => (body, none)
  match fs.find? name with
  | some f => .ok (f, arg, value)
  | none =>
    if Text.startsWith arg "--" then .error (.unknown ("--" ++ name))
    else match arg.toList with
      | '-' :: c :: cs =>
        match if c.toNat < 128 then fs.findShort? c else none with
        | none => .error (.unknown arg)
        | some f => .ok (f, "-" ++ c.toString, if cs = [] then none else some (String.ofList cs))
      | _ => .error (.unknown arg)

/-- Reads arguments, with `args` the positional ones so far. -/
def parseFrom (fs : Flags) (args : List String) : List String → Parsed
  | [] => { flags := fs, args := args }
  | arg :: rest =>
    if !isFlagLike arg then fs.parseFrom (args ++ [arg]) rest
    else if arg = "--" then { flags := fs, args := args ++ rest }
    else match fs.target arg with
      | .error e => { flags := fs, args := args, problem := some e }
      | .ok (f, quoted, value) =>
        match if f.isSwitch then some (value.getD "") else value with
        | some value =>
          match fs.set f value with
          | .error e => { flags := fs, args := args, problem := some e }
          | .ok fs => fs.parseFrom args rest
        | none =>
          match rest with
          | [] => { flags := fs, args := args, problem := some (.needsArgument quoted) }
          | value :: rest =>
            match fs.set f value with
            | .error e => { flags := fs, args := args, problem := some e }
            | .ok fs => fs.parseFrom args rest

def parse (fs : Flags) (args : List String) : Parsed :=
  fs.parseFrom [] args

end Flags

end Impulse
