import Impulse.Ty

/-!
# Scopes

The variables visible inside a function, as a stack of frames. A new frame starts with everything its
parent shows, so a name is always looked up in the top frame alone; each frame also remembers, in
order, the names it declared itself.
-/

namespace Impulse

/-- What a name stands for: a variable, a parameter, a field of a struct or a constant of an enum. -/
structure Variable where
  name : String
  ty : Ty
  const : Bool := false
  /-- Whether the name lies in a namespace and is made flat in the output. -/
  flat : Bool := false
  /-- The computed text of a constant, or nothing if it is not known. -/
  value : String := ""
  deriving Inhabited

inductive FrameKind
  | global
  | function
  | block
  deriving DecidableEq, Repr

/-- One level of a scope: the variables that can be seen, no two of the same name, and the names
declared at this level. -/
structure Frame where
  kind : FrameKind
  visible : List Variable := []
  own : List String := []

namespace Frame

def find? (f : Frame) (name : String) : Option Variable :=
  f.visible.find? (·.name == name)

/-- Makes `v` visible, in the place of an older variable of the same name. -/
def reveal (f : Frame) (v : Variable) : Frame :=
  if f.visible.any (·.name == v.name) then
    { f with visible := f.visible.map fun w => if w.name == v.name then v else w }
  else { f with visible := f.visible ++ [v] }

def declared (f : Frame) : List Variable :=
  f.own.filterMap f.find?

/-- A frame of the given kind that shows what `f` shows. -/
def inner (f : Frame) (kind : FrameKind) : Frame :=
  { kind := kind, visible := f.visible }

end Frame

/-- A stack of frames. The bottom frame is the global one. -/
structure Scope where
  top : Frame
  below : List Frame := []

namespace Scope

def empty : Scope :=
  { top := { kind := .global } }

def depth (s : Scope) : Nat :=
  s.below.length

def push (s : Scope) (kind : FrameKind) : Scope :=
  { top := s.top.inner kind, below := s.top :: s.below }

/-- Closes the top frame. The global frame cannot be closed. -/
def pop? (s : Scope) : Option Scope :=
  match s.below with
  | [] => none
  | f :: fs => some { top := f, below := fs }

def find? (s : Scope) (name : String) : Option Variable :=
  s.top.find? name

/-- Declares `v` in the top frame, and tells whether it hides an outer variable. A frame declares a
name at most once. -/
def declare? (s : Scope) (v : Variable) : Option (Bool × Scope) :=
  if s.top.own.contains v.name then none
  else
    let top := s.top.reveal v
    some ((s.find? v.name).isSome, { s with top := { top with own := s.top.own ++ [v.name] } })

end Scope

end Impulse
