import Impulse.Problem
import Impulse.Token.Group

/-!
# What expressions are read in

An expression is read in a view of the compilation that it cannot change: the settings, the context, the
variables in scope and the placeholders in force. Reading it may raise warnings, and it may end early.
-/

namespace Impulse

/-- What is known while an expression is read. -/
structure View where
  settings : Settings
  context : Context
  scope : Scope
  /-- The struct whose body is open, with its placeholders. -/
  self? : Option (String × List String) := none
  /-- The placeholders that may be used. -/
  placeholders : List String := []
  /-- The last token of the file, where errors about nothing at all are put. -/
  last : Token

namespace View

def find? (v : View) (path : String) : Option Variable :=
  v.context.resolvePath? v.scope path

def isTypeName (v : View) (name : String) : Bool :=
  (Ty.ofKeyword? name).isSome || v.context.structs.has name || v.context.enums.has name

end View

structure Notice where
  token : Token
  caution : Caution

/-- Computations in a view that collect notices and may stop. -/
abbrev Infer := ReaderT View (EStateM Stop (List Notice))

namespace Infer

def fail {α : Type} (t : Token) (p : Problem) : Infer α :=
  throw (.problem t p)

def fault {α : Type} (f : Fault) : Infer α :=
  throw (.fault f)

def warn (t : Token) (c : Caution) : Infer Unit :=
  modify (· ++ [⟨t, c⟩])

/-- Two types do not fit: an error if types are strict, and a warning otherwise. -/
def mismatch (t : Token) (m : Mismatch) : Infer Unit := do
  if (← read).settings.feature .strictTypes then fail t (.mismatch m)
  else warn t (.mismatch m)

def ofExcept {α : Type} : Except Stop α → Infer α
  | .ok a => pure a
  | .error e => throw e

/-- Takes a token of the given kind from the front, or tells at the token in front, or at the last one,
what is expected. -/
def expect (final : Token) (kind : Token.Kind) (p : Problem) :
    List Token → Except Stop (Token × List Token)
  | t :: ts => if t.kind = kind then .ok (t, ts) else .error (.problem t p)
  | [] => .error (.problem final p)

/-- The tokens before and behind the parenthesis that closes the open one. -/
def closing (opened : Token) (toks : List Token) : Except Stop (List Token × List Token) :=
  match Token.untilClose 0 toks with
  | some parts => .ok parts
  | none => .error (.problem opened (.unmatched "("))

def nothingMore (region : Region) : List Token → Except Stop Unit
  | [] => .ok ()
  | t :: _ => .error (.problem t (.unexpected t.text region))

end Infer

end Impulse
