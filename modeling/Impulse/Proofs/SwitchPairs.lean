import Impulse.Settings.Switches

/-!
# Pairs of switches

The two switches of a pair are flags of their own, and it is not kept in which order they are given. After the arguments
are read, a warning or a feature whose switches are given without values is off if the disabling switch is among them,
wherever it stands, and on otherwise, whatever the language profile says.
-/

namespace Impulse

open List

namespace Flags

/-- The name that an argument gives a flag by, and the value that is attached to it. -/
def named (arg : String) : String × Option String :=
  (Text.cut? '=' (withoutDashes arg)).elim (withoutDashes arg, none) fun r => (r.1, some r.2)

/-- The flags that the arguments give, up to the end of flags. -/
def given (args : List String) : List (String × Option String) :=
  ((args.takeWhile (· ≠ "--")).filter isFlagLike).map named

/-- All flags are switches without a short name. -/
def AllSwitches (fs : Flags) : Prop :=
  ∀ f ∈ fs.flags, f.isSwitch = true ∧ f.short = ""

variable {fs fs' : Flags}

theorem AllSwitches.target (h : fs.AllSwitches) (read : fs.target arg = .ok (f, quoted, value)) :
    fs.find? f.name = some f ∧ (f.name, value) = named arg ∧ f.isSwitch = true := by
  have noShort (c : Char) : fs.findShort? c = none := by
    refine find?_eq_none.mpr fun g mem => ?_
    rw [(h g mem).2]
    simp [Char.toString]
  have found : fs.find? (named arg).1 = some f ∧ value = (named arg).2 := by
    unfold Flags.target at read
    unfold named
    cases cut : Text.cut? '=' (withoutDashes arg) <;> simp only [cut, noShort, ite_self] at read <;>
    · split at read
      · next found =>
        cases read
        exact ⟨found, rfl⟩
      · split at read
        · cases read
        · split at read <;> cases read
  obtain ⟨found, rfl⟩ := found
  have same : f.name = (named arg).1 := beq_iff_eq.mp (find?_some found :)
  exact ⟨same ▸ found, by rw [same], (h f (mem_of_find?_eq_some found)).1⟩

theorem set_eq (given : fs.set f text = .ok fs') (switch : f.isSwitch = true) :
    ∃ on, (text = "" → on = true) ∧ fs' = { fs with
      flags := fs.flags.map fun g => if g.name == f.name then { f with value := .switch on } else g } := by
  unfold Flags.set Flag.set at given
  unfold Flag.isSwitch at switch
  split at switch
  · next value =>
    rw [value] at given
    dsimp only at given
    by_cases bare : text = ""
    · rw [if_pos bare] at given
      cases given
      exact ⟨true, fun _ => rfl, rfl⟩
    · rw [if_neg bare] at given
      cases read : Flag.bool? text with
      | none =>
        rw [read] at given
        cases given
      | some on =>
        rw [read] at given
        cases given
        exact ⟨on, fun empty => absurd empty bare, rfl⟩
  · cases switch

theorem AllSwitches.set (h : fs.AllSwitches) (mem : f ∈ fs.flags) (given : fs.set f text = .ok fs') : fs'.AllSwitches := by
  obtain ⟨on, -, rfl⟩ := set_eq given (h f mem).1
  intro g hg
  obtain ⟨g, mem', rfl⟩ := mem_map.mp hg
  split
  · exact ⟨rfl, (h f mem).2⟩
  · exact h g mem'

theorem isOn_set (known : fs.find? f.name = some f) (switch : f.isSwitch = true) (bare : f.name = name → text = "")
    (given : fs.set f text = .ok fs') : fs'.isOn name = (fs.isOn name || f.name == name) := by
  obtain ⟨on, empty, rfl⟩ := set_eq given switch
  have kept : (fun g : Flag => (if g.name == f.name then { f with value := .switch on } else g).name == name)
      = fun g => g.name == name := by
    funext g
    split
    · next same => rw [beq_iff_eq.mp same]
    · rfl
  unfold isOn find?
  dsimp only
  rw [find?_map, Function.comp_def, kept]
  by_cases own : f.name = name
  · subst own
    rw [show fs.flags.find? (·.name == f.name) = some f from known, empty (bare rfl)]
    simp
  · cases found : fs.flags.find? (·.name == name) with
    | none => simp [beq_false_of_ne own]
    | some g =>
      have same : g.name = name := beq_iff_eq.mp (find?_some found :)
      simp [same, Ne.symm own, beq_false_of_ne own]

theorem isOn_parseFrom (h : fs.AllSwitches) (accepted : (fs.parseFrom args rest).problem = none)
    (bare : ∀ v, (name, some v) ∉ given rest) :
    (fs.parseFrom args rest).flags.isOn name = (fs.isOn name || decide ((name, none) ∈ given rest)) := by
  fun_induction parseFrom fs args rest with
  | case1 => simp [given]
  | case2 fs args arg rest like ih =>
    have other : arg ≠ "--" := by
      rintro rfl
      cases like
    have same : given (arg :: rest) = given rest := by simp [given, other, Bool.not_eq_true' _ ▸ like]
    rw [same] at bare ⊢
    exact ih h accepted bare
  | case3 fs args rest like => simp [given]
  | case4 | case5 | case7 | case8 => cases accepted
  | case6 fs args arg rest like more f quoted value target text texted fs' set ih =>
    obtain ⟨known, isNamed, switch⟩ := h.target target
    have same : given (arg :: rest) = (f.name, value) :: given rest := by
      simp [given, more, by simpa using like, isNamed]
    rw [same] at bare ⊢
    rw [if_pos switch] at texted
    have plain : f.name = name → value = none := by
      rintro rfl
      cases value with
      | none => rfl
      | some v => exact absurd (.head _) (bare v)
    have first : fs'.isOn name = (fs.isOn name || f.name == name) := by
      refine isOn_set known switch (fun own => ?_) set
      rw [← Option.some.inj texted, plain own]
      rfl
    rw [ih (h.set (mem_of_find?_eq_some known) set) accepted fun v mem => bare v (.tail _ mem), first, Bool.or_assoc]
    by_cases own : f.name = name
    · simp [own, plain own]
    · simp [beq_false_of_ne own, Ne.symm own]
  | case9 fs args arg like more f quoted value target texted text rest fs' set ih =>
    rw [if_pos (h.target target).2.2] at texted
    cases texted

/-- A switch of the pair is given, and none of them with a value. -/
structure Switched (args : List String) (on off : String) : Prop where
  named : (on, none) ∈ given args ∨ (off, none) ∈ given args
  bare : ∀ v, (on, some v) ∉ given args ∧ (off, some v) ∉ given args

theorem Switched.counts (h : Switched args on off) (switches : fs.AllSwitches) (start : ∀ name, fs.isOn name = false)
    (accepted : (fs.parse args).problem = none) (default : Bool) :
    (if (fs.parse args).flags.isOn off then false else if (fs.parse args).flags.isOn on then true else default) = true ↔
      (off, none) ∉ given args := by
  rw [parse, isOn_parseFrom switches accepted fun v => (h.bare v).1,
    isOn_parseFrom switches accepted fun v => (h.bare v).2, start, start]
  by_cases last : (off, none) ∈ given args
  · simp [last]
  · simp [last, h.named.resolve_right last]

end Flags

namespace Settings

theorem warning_applySwitches (s : Settings) (fs : Flags) (w : Warning) : (s.applySwitches fs).warning w =
    if fs.isOn ("Wno-" ++ w.name) then false else if fs.isOn ("W" ++ w.name) then true else s.warning w := by
  have branch (c : Bool) (s t : Settings) (w : Warning) :
      (if c then s else t).warning w = if c then s.warning w else t.warning w := by cases c <;> rfl
  have own (s : Settings) (v : Warning) (on : Bool) (w : Warning) :
      (s.setWarning v on).warning w = if w = v then on else s.warning w := rfl
  have other (s : Settings) (f : Feature) (on : Bool) : (s.setFeature f on).warning = s.warning := rfl
  cases w <;> simp only [applySwitches, Warning.all, Feature.all, foldl_cons, foldl_nil, branch, own, other, ite_self,
    reduceCtorEq, if_false, if_true]

theorem feature_applySwitches (s : Settings) (fs : Flags) (f : Feature) : (s.applySwitches fs).feature f =
    if fs.isOn ("Fno-" ++ f.name) then false else if fs.isOn ("F" ++ f.name) then true else s.feature f := by
  have branch (c : Bool) (s t : Settings) (f : Feature) :
      (if c then s else t).feature f = if c then s.feature f else t.feature f := by cases c <;> rfl
  have own (s : Settings) (g : Feature) (on : Bool) (f : Feature) :
      (s.setFeature g on).feature f = if f = g then on else s.feature f := rfl
  have other (s : Settings) (w : Warning) (on : Bool) : (s.setWarning w on).feature = s.feature := rfl
  cases f <;> simp only [applySwitches, Warning.all, Feature.all, foldl_cons, foldl_nil, branch, own, other, ite_self,
    reduceCtorEq, if_false, if_true]

/-- For all arguments that are accepted, and all warnings and features of which a switch is given, but none with a value:
if the disabling switch is given, it counts, wherever it stands, and else the enabling one does. What the profile says
makes no difference. -/
theorem applySwitches_pairs (added : addSwitches {} = .ok fs) (accepted : (fs.parse args).problem = none)
    (s : Settings) (profile : String) :
    let after := (s.applyProfile profile).1.applySwitches (fs.parse args).flags
    (∀ w : Warning, Flags.Switched args ("W" ++ w.name) ("Wno-" ++ w.name) →
      (after.warning w = true ↔ ("Wno-" ++ w.name, none) ∉ Flags.given args)) ∧
    ∀ f : Feature, Flags.Switched args ("F" ++ f.name) ("Fno-" ++ f.name) →
      (after.feature f = true ↔ ("Fno-" ++ f.name, none) ∉ Flags.given args) := by
  have start : (addSwitches {}).toOption.any (fun fs => fs.flags.all fun f =>
      f.isSwitch && f.short == "" && !fs.isOn f.name) = true := by decide +kernel
  rw [added] at start
  have each : ∀ f ∈ fs.flags, (f.isSwitch = true ∧ f.short = "") ∧ fs.isOn f.name = false := by
    simpa [Except.toOption] using start
  have off : ∀ name, fs.isOn name = false := by
    intro name
    cases found : fs.find? name with
    | none => rw [Flags.isOn, found]
    | some f =>
      obtain rfl : f.name = name := beq_iff_eq.mp (find?_some found :)
      exact (each f (mem_of_find?_eq_some found)).2
  have switches : fs.AllSwitches := fun f mem => (each f mem).1
  refine ⟨fun w switched => ?_, fun f switched => ?_⟩
  · rw [warning_applySwitches]
    exact switched.counts switches off accepted _
  · rw [feature_applySwitches]
    exact switched.counts switches off accepted _

def switchArgs : List String :=
  ["-Wno-shadow", "main.imp", "-Wshadow", "--Ffold", "--", "-Fno-fold"]

/-- The warning stays off although its enabling switch comes last, and a switch behind the end of flags does not count. -/
theorem applySwitches_pairs_last : ∃ fs, addSwitches {} = .ok fs ∧ (fs.parse switchArgs).problem = none ∧
    (((({} : Settings).applyProfile "imp").1.applySwitches (fs.parse switchArgs).flags).warning .shadow = true ↔
      ("Wno-shadow", none) ∉ Flags.given switchArgs) ∧
    (((({} : Settings).applyProfile "imp").1.applySwitches (fs.parse switchArgs).flags).feature .fold = true ↔
      ("Fno-fold", none) ∉ Flags.given switchArgs) := by
  have run : (addSwitches {}).toOption.any (fun fs => (fs.parse switchArgs).problem.isNone) = true := by decide +kernel
  have listed : Flags.given switchArgs = [("Wno-shadow", none), ("Wshadow", none), ("Ffold", none)] := by decide +kernel
  cases added : addSwitches {} with
  | error e =>
    rw [added] at run
    cases run
  | ok fs =>
    rw [added] at run
    have accepted : (fs.parse switchArgs).problem = none := Option.isNone_iff_eq_none.mp run
    obtain ⟨warnings, features⟩ := applySwitches_pairs added accepted {} "imp"
    refine ⟨fs, rfl, accepted, warnings .shadow ⟨?_, ?_⟩, features .fold ⟨?_, ?_⟩⟩ <;> rw [listed]
    all_goals simp [Warning.name, Feature.name]

/-- The enabling switch comes last, and the warning is off. -/
theorem applySwitches_order : ((addSwitches {}).toOption.map fun fs =>
    let read := fs.parse ["-Wno-shadow", "-Wshadow"]
    (read.problem.isNone, (({} : Settings).applySwitches read.flags).warning .shadow)) = some (true, false) := by
  decide +kernel

end Settings

end Impulse
