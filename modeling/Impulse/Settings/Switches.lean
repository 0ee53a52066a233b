import Impulse.Flag
import Impulse.Settings

/-!
# Switches for warnings and features

Every warning and every feature has a pair of switches: `-Wname` and `-Wno-name`, `-Fname` and
`-Fno-name`. Reading the arguments first and applying the switches afterwards lets them override the
language profile.
-/

namespace Impulse.Settings

def warningGroup : Flag.Group :=
  { name := "Warning Flags", description := "Enable or disable specific warnings", kind := "warning",
    header := "Available Warnings:",
    entries := Warning.all.map fun w => { name := w.name, lead := "W", usage := w.description } }

def featureGroup : Flag.Group :=
  { name := "Feature Flags", description := "Enable or disable specific language features",
    kind := "feature", header := "Available Features:",
    entries := Feature.all.map fun f => { name := f.name, lead := "F", usage := f.description } }

def addSwitches (fs : Flags) : Except Flag.Misuse Flags := do
  (← fs.addGroup warningGroup).addGroup featureGroup

/-- Applies the switches that are on. Where both of a pair are on, the disabling one counts. -/
def applySwitches (s : Settings) (fs : Flags) : Settings :=
  let s := Warning.all.foldl (fun s w =>
    let s := if fs.isOn ("W" ++ w.name) then s.setWarning w true else s
    if fs.isOn ("Wno-" ++ w.name) then s.setWarning w false else s) s
  Feature.all.foldl (fun s f =>
    let s := if fs.isOn ("F" ++ f.name) then s.setFeature f true else s
    if fs.isOn ("Fno-" ++ f.name) then s.setFeature f false else s) s

end Impulse.Settings
