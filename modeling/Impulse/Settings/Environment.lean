import Impulse.Settings
import Impulse.Text.Path

/-!
# Settings from the environment

Environment variables give the import paths, the cache directory, the directory of the standard tree,
and whether messages are coloured. A variable that is empty counts as not set.
-/

namespace Impulse

abbrev Environment := List (String × String)

namespace Environment

/-- The value of a variable, or nothing if it is not set. -/
def get (env : Environment) (name : String) : String :=
  ((env.find? (·.1 == name)).map (·.2)).getD ""

/-- The value of a variable, or `other` if it is empty. -/
def getD (env : Environment) (name other : String) : String :=
  let value := env.get name
  if value = "" then other else value

def yesWords : List String :=
  ["1", "ABSOLUTELY", "AFFIRMATIVE", "Absolutely", "Affirmative", "ENABLE", "ENABLED", "Enable",
   "Enabled", "POSITIVE", "Positive", "T", "TRUE", "True", "Y", "YES", "Yes", "absolutely",
   "affirmative", "enable", "enabled", "positive", "t", "true", "y", "yes"]

def isYes (env : Environment) (name : String) : Bool :=
  yesWords.contains (env.get name)

/-- The user's cache directory, if the environment tells it. A relative one is not taken. -/
def userCache? (env : Environment) : Option String :=
  let dir := env.get "XDG_CACHE_HOME"
  if dir ≠ "" then
    if Text.Path.isAbsolute dir then some dir else none
  else
    let home := env.get "HOME"
    if home = "" then none else some (home ++ "/.cache")

def temporary (env : Environment) : String :=
  env.getD "TMPDIR" "/tmp"

def defaultCache (env : Environment) : String :=
  Text.Path.join [(env.userCache?).getD env.temporary, "impc"]

end Environment

def Settings.ofEnvironment (env : Environment) : Settings :=
  let paths := env.get "IMPULSE_PATH"
  { includePaths := if paths = "" then [] else Text.splitOn ':' paths
    cacheDir := env.getD "IMPULSE_CACHE" env.defaultCache
    stdRoot := env.get "IMPULSE_STD"
    color := !env.isYes "NO_COLOR" }

end Impulse
