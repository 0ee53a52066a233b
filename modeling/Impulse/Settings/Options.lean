import Impulse.Settings.Switches

/-!
# Options of a compilation

The options that choose the language profile and the target, together with the switches. The profile is
applied first, so that switches override it.
-/

namespace Impulse.Settings

def targetFlag : Flag :=
  .ofText "target" "t" "" "Set the target used for word-size checks (QBE target name)." "target"

def profileFlag : Flag :=
  .ofText "std" "" "imp" "Specify language profile (imp, imp-strict)" "std"

/-- The option that asks for all warnings of the profile. -/
def pedanticFlag : Flag :=
  .ofSwitch "pedantic" "" false "Issue all warnings demanded by the current profile."

def languageFlags : List Flag :=
  [profileFlag, targetFlag, pedanticFlag]

/-- The settings after the options: pedantry, then the profile, then the switches. -/
def configure (s : Settings) (fs : Flags) : Except String Settings :=
  let s := if fs.isOn "pedantic" then s.setWarning .pedantic true else s
  match s.applyProfile (fs.textOf "std") with
  | (_, some message) => .error message
  | (s, none) => .ok (s.applySwitches fs)

end Impulse.Settings
