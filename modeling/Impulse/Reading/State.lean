import Impulse.Expr
import Impulse.Program
import Impulse.Reading.Deferral
import Impulse.Report

/-!
# The state of reading a file

A file is read token by token. The state holds what was found so far: the context, the program, the blocks
that are open and the tokens that wait for the sign that ends their statement. What all files of a
compilation share is its session: the files that were opened, the warnings, and the library.
-/

namespace Impulse

inductive BlockKind
  | function
  | struct
  | enum
  | branch
  | otherwise
  | switch
  | arm
  | loop
  | iterate
  | deferred
  | bare
  deriving DecidableEq, Repr

def BlockKind.text : BlockKind → String
  | function => "function"
  | struct => "struct"
  | enum => "enum"
  | branch => "if"
  | otherwise => "else"
  | switch => "switch"
  | arm => "case"
  | loop => "loop"
  | iterate => "for"
  | deferred => "defer"
  | bare => "block"

/-- A block that is open. `framed` tells whether it has a frame of variables, and `value` is the type of a
switch. -/
structure Block where
  kind : BlockKind
  token : Token
  framed : Bool
  value : Ty := .absent

structure FunctionInfo where
  name : String
  ret : Ty
  placeholders : List String
  /-- The number of blocks that were open when its body began, its own included. -/
  depth : Nat

/-- A struct whose body is open. Its fields are complete at its first method. -/
structure StructDraft where
  name : String
  token : Token
  generics : List String
  fields : List Param := []
  fieldsOpen : Bool := true

structure EnumDraft where
  name : String
  token : Token
  fields : List String := []

/-- A struct or an enum whose body is open. -/
inductive Record
  | struct (d : StructDraft)
  | enum (d : EnumDraft)

namespace Record

def name : Record → String
  | struct d => d.name
  | enum d => d.name

def kind : Record → BlockKind
  | struct _ => .struct
  | enum _ => .enum

def self? : Record → Option (String × List String)
  | struct d => some (d.name, d.generics)
  | enum _ => none

def placeholders : Record → List String
  | struct d => d.generics
  | enum _ => []

end Record

/-- What all files of a compilation share. -/
structure Session where
  files : List SourceFile := []
  notices : List Notice := []
  library : Library

/-- What was found while reading a file. Blocks are listed innermost first. -/
structure State where
  session : Session
  context : Context
  scope : Scope := .empty
  program : Program := []
  /-- The path of the file. -/
  file : String := ""
  /-- The last token of the file. -/
  last : Token := default
  /-- The tokens that wait for the end of their statement. -/
  buffer : List Token := []
  blocks : List Block := []
  /-- Whether the block that was closed last can be followed by another branch. -/
  afterBranch : Bool := false
  function : Option FunctionInfo := none
  record : Option Record := none
  deferral : Deferral := {}

namespace State

def depth (s : State) : Nat :=
  s.blocks.length

def view (s : State) (settings : Settings) : View :=
  { settings := settings
    context := s.context
    scope := s.scope
    self? := s.record.bind Record.self?
    placeholders := ((s.record.map Record.placeholders).getD [])
      ++ ((s.function.map (·.placeholders)).getD [])
    last := s.last }

def inSwitch (s : State) : Bool :=
  (s.blocks.head?.map (·.kind)) = some .switch

/-- Whether a jump has a target inside the function and the deferred block around it. -/
def canJump (blocks : List Block) : Bool :=
  match blocks with
  | [] => false
  | b :: bs =>
    match b.kind with
    | .loop | .iterate | .switch | .arm => true
    | .function | .deferred => false
    | _ => canJump bs

end State

abbrev Parse := ReaderT Settings (EStateM Stop State)

namespace Parse

def fail {α : Type} (t : Token) (p : Problem) : Parse α :=
  throw (.problem t p)

def fault {α : Type} (f : Fault) : Parse α :=
  throw (.fault f)

def ofExcept {α : Type} : Except Stop α → Parse α
  | .ok a => pure a
  | .error e => throw e

def withNotices (s : State) (notices : List Notice) : State :=
  { s with session := { s.session with notices := notices } }

/-- Reads something in the present view. Its notices are kept, also if it stops. -/
def infer {α : Type} (x : Infer α) : Parse α := fun settings s =>
  match x (s.view settings) s.session.notices with
  | .ok a notices => .ok a (withNotices s notices)
  | .error e notices => .error e (withNotices s notices)

def warn (t : Token) (c : Caution) : Parse Unit :=
  infer (Infer.warn t c)

/-- Two types do not fit: an error if types are strict, and a warning otherwise. -/
def mismatch (t : Token) (m : Mismatch) : Parse Unit :=
  infer (Infer.mismatch t m)

def expression (toks : List Token) (want : Ty) : Parse Node :=
  infer (Infer.expression toks want)

def typeOf (header : Bool) (toks : List Token) : Parse Ty := do
  ofExcept (TypeExpr.ofTokens ((← get).view (← read)) header toks)

/-- The last of some tokens, or the last one of the file if there are none. -/
def finalOf (toks : List Token) : Parse Token := do
  return toks.getLastD (← get).last

def expect (final : Token) (kind : Token.Kind) (p : Problem) (toks : List Token) :
    Parse (Token × List Token) :=
  ofExcept (Infer.expect final kind p toks)

/-- The tokens before and behind the parenthesis that closes the open one. -/
def closing (opened : Token) (toks : List Token) : Parse (List Token × List Token) :=
  ofExcept (Infer.closing opened toks)

def nothingMore (region : Region) (toks : List Token) : Parse Unit :=
  ofExcept (Infer.nothingMore region toks)

/-- The name a token gives to something new. Type keywords are no names. -/
def newName (t : Token) : Parse String :=
  if t.kind ≠ .ident then fail t (.definition (.notAName t.text))
  else if Ty.isKeyword t.value then fail t (.definition (.typeKeyword t.value))
  else pure t.value

/-- Adds a node to the program, or to the group that is being deferred. -/
def emit (n : Node) : Parse Unit :=
  modify fun s =>
    match s.deferral.recording with
    | some group => { s with deferral := { s.deferral with recording := some (group ++ [n]) } }
    | none => { s with program := s.program ++ [Entry.of n s.file] }

def emitAll : List Node → Parse Unit
  | [] => pure ()
  | n :: ns => do
    emit n
    emitAll ns

/-- Opens a block. A framed block gets a frame of variables. -/
def openBlock (b : Block) : Parse Unit :=
  modify fun s =>
    let frame := if b.kind = .function then FrameKind.function else .block
    { s with
      scope := if b.framed then s.scope.push frame else s.scope
      blocks := b :: s.blocks }

def popFrame : Parse Unit := do
  match (← get).scope.pop? with
  | none => fault .globalFrame
  | some scope => modify fun s => { s with scope := scope }

def requireFunction (t : Token) : Parse Unit := do
  let s ← get
  if s.function.isSome then return
  match s.record with
  | some r => fail t (.block (.notInRecord t.text r.kind.text r.name))
  | none => fail t (.block (.onlyInFunction t.text))

end Parse

end Impulse
