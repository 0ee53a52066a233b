/-!
# Registries

A registry maps names to items. It remembers the order in which names were first added and the file
each entry comes from.
-/

namespace Impulse

/-- A named item with the file that defines it. -/
structure Table.Entry (α : Type) where
  name : String
  item : α
  origin : String

/-- The entries of a registry in the order their names were first added. -/
structure Table (α : Type) where
  entries : List (Table.Entry α) := []

structure Conflict where
  name : String
  known : String
  got : String
  deriving DecidableEq, Repr

namespace Table

variable {α : Type}

def find? (t : Table α) (name : String) : Option (Entry α) :=
  t.entries.find? (·.name == name)

def get? (t : Table α) (name : String) : Option α :=
  (t.find? name).map (·.item)

def has (t : Table α) (name : String) : Bool :=
  t.entries.any (·.name == name)

def origin? (t : Table α) (name : String) : Option String :=
  (t.find? name).map (·.origin)

def size (t : Table α) : Nat :=
  t.entries.length

def names (t : Table α) : List String :=
  t.entries.map (·.name)

/-- Adds an item. An older entry of the same name is replaced where it stands. -/
def add (t : Table α) (name : String) (item : α) (origin : String) : Table α :=
  if t.has name then
    ⟨t.entries.map fun e => if e.name == name then ⟨name, item, origin⟩ else e⟩
  else ⟨t.entries ++ [⟨name, item, origin⟩]⟩

/-- Adds the entries whose names are new, in order. An entry of a known name is skipped if both come
from the same file; otherwise it is a conflict, and nothing behind it is added. -/
def absorbEntries (t : Table α) : List (Entry α) → Table α × Option Conflict
  | [] => (t, none)
  | e :: es =>
    match t.find? e.name with
    | some known =>
      if known.origin = e.origin then t.absorbEntries es
      else (t, some ⟨e.name, known.origin, e.origin⟩)
    | none => (t.add e.name e.item e.origin).absorbEntries es

/-- Takes over the entries of another registry, up to the first conflict. -/
def absorb (t other : Table α) : Table α × Option Conflict :=
  t.absorbEntries other.entries

end Table

end Impulse
