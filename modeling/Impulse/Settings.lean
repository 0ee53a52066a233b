/-!
# Settings of a compilation

The switches and values that steer a compilation: features of the language, warnings, the language
profile, the target with its word size, and where imported files are looked for.
-/

namespace Impulse

/-- The parts of the language that can be switched off. -/
inductive Feature
  | builtin
  | strictTypes
  | deferReturn
  | methodCalls
  | fold
  | comments
  deriving DecidableEq, Repr

namespace Feature

def all : List Feature :=
  [builtin, strictTypes, deferReturn, methodCalls, fold, comments]

def name : Feature → String
  | builtin => "builtin"
  | strictTypes => "strict-types"
  | deferReturn => "defer-return"
  | methodCalls => "method-calls"
  | fold => "fold"
  | comments => "c-comments"

def description : Feature → String
  | builtin => "Implicitly import 'base/builtin.imp' into the root file."
  | strictTypes => "Treat call-site and assignment type mismatches as errors."
  | deferReturn => "Replay pending defer blocks before every 'return'."
  | methodCalls => "Allow 'v.method(args)' calls on struct variables."
  | fold => "Fold constant integer-literal arithmetic at parse time."
  | comments => "Recognize C-style '//' line comments."

def ofName? (s : String) : Option Feature :=
  all.find? (·.name == s)

end Feature

/-- The warnings that can be switched on and off. -/
inductive Warning
  | type
  | overflow
  | shadow
  | reimport
  | pedantic
  | extra
  deriving DecidableEq, Repr

namespace Warning

def all : List Warning :=
  [type, overflow, shadow, reimport, pedantic, extra]

def name : Warning → String
  | type => "type"
  | overflow => "overflow"
  | shadow => "shadow"
  | reimport => "reimport"
  | pedantic => "pedantic"
  | extra => "extra"

def description : Warning → String
  | type => "Warn about type mismatches when strict-types is off."
  | overflow => "Warn when a folded integer literal does not fit in a word."
  | shadow => "Warn when a declaration shadows a name from an enclosing block."
  | reimport => "Warn when a file is imported more than once."
  | pedantic => "Issue all warnings demanded by the strict profile."
  | extra => "Enable extra miscellaneous warnings."

def isDefault : Warning → Bool
  | type | overflow | extra => true
  | shadow | reimport | pedantic => false

def ofName? (s : String) : Option Warning :=
  all.find? (·.name == s)

end Warning

structure Settings where
  feature : Feature → Bool := fun _ => true
  warning : Warning → Bool := Warning.isDefault
  profile : String := "imp"
  arch : String := ""
  target : String := ""
  /-- The bytes of a machine word, which bound computed numbers. -/
  wordSize : Nat := 8
  includePaths : List String := []
  cacheDir : String := ""
  /-- The directory of the standard tree, or nothing if it is to be found in the cache. -/
  stdRoot : String := ""
  color : Bool := true

namespace Settings

def setFeature (s : Settings) (f : Feature) (on : Bool) : Settings :=
  { s with feature := fun g => if g = f then on else s.feature g }

def setWarning (s : Settings) (w : Warning) (on : Bool) : Settings :=
  { s with warning := fun v => if v = w then on else s.warning v }

def unknownProfile (name : String) : String :=
  "unsupported standard '" ++ name ++ "'. Supported: 'imp', 'imp-strict'"

/-- Sets the profile and, if it exists, its switches. Method calls are left to the plain profile without
pedantry; the strict profile also warns about hidden names and repeated imports. -/
def applyProfile (s : Settings) (name : String) : Settings × Option String :=
  let s := { s with profile := name }
  let basic (s : Settings) (methods : Bool) : Settings :=
    (((s.setFeature .strictTypes true).setFeature .methodCalls methods).setFeature
      .deferReturn true).setFeature .fold true
  if name = "imp" then (basic s (!s.warning .pedantic), none)
  else if name = "imp-strict" then
    (((basic s false).setWarning .shadow true).setWarning .reimport true, none)
  else (s, some (unknownProfile name))

def hostTarget (os arch : String) : String :=
  if os = "darwin" && arch = "amd64" then "amd64_apple"
  else if os = "darwin" && arch = "arm64" then "arm64_apple"
  else if (os = "freebsd" || os = "linux") && arch = "arm64" then "arm64"
  else if os = "linux" && arch = "riscv64" then "rv64"
  else "amd64_sysv"

def wordSizeOf? (target : String) : Option Nat :=
  if ["amd64_sysv", "amd64_apple", "arm64", "arm64_apple", "rv64"].contains target then some 8
  else if ["arm", "rv32"].contains target then some 4
  else none

/-- Sets the target, the host's if none is named. The second part warns of a target that is not known. -/
def setTarget (s : Settings) (os arch target : String) : Settings × String :=
  let target := if target = "" then hostTarget os arch else target
  let s := { s with target := target, arch := arch, wordSize := (wordSizeOf? target).getD 8 }
  match wordSizeOf? target with
  | some _ => (s, "")
  | none =>
    (s, "impc: warning: unrecognized target '" ++ target ++ "', assuming 64-bit words.\n")

end Settings

end Impulse
