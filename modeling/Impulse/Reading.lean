import Impulse.Reading.Statement

/-!
# Reading programs

A program is read from its main file, token by token. An opening brace, a closing brace or a semicolon decides
what the tokens before it are. An imported file is read with what is known so far; its entries follow the
import, and what it defines is taken over.
-/

namespace Impulse

namespace Parse

def finishFile : Parse Unit := do
  let s ← get
  match s.buffer.getLast? with
  | some t => fail t (.block .unfinished)
  | none =>
    match s.blocks with
    | [] => return
    | b :: _ => fail b.token (.block (.unclosed s.depth b.kind.text))

def takeBuffer : Parse (List Token) := do
  let s ← get
  set { s with buffer := [] }
  return s.buffer

def token (importer : Importer) (t : Token) : Parse Unit := do
  if t.isTrivia then return
  match t.kind with
  | .lbrace => header t (← takeBuffer)
  | .semicolon =>
    let toks ← takeBuffer
    if !toks.isEmpty then statement importer toks
  | .rbrace =>
    match (← get).buffer.getLast? with
    | some u => fail u (.block .missingSemicolon)
    | none => closeBlock t
  | .endOfFile => finishFile
  | _ => modify fun s => { s with buffer := s.buffer ++ [t] }

def tokens (importer : Importer) : List Token → Parse Unit
  | [] => pure ()
  | t :: ts => do
    token importer t
    tokens importer ts

/-- Opens a file: it is numbered, and its text is cut into tokens. -/
def openFile (path text : String) : Parse (List Token) := do
  let s ← get
  let index := s.session.files.length
  let found := tokenize ((← read).feature .comments) index text
  set { s with
    session := { s.session with files := s.session.files ++ [SourceFile.mk path text] }
    file := path
    last := found.tokens.getLastD default }
  match found.failure with
  | some (t, e) => fail t (.lexical e)
  | none => return found.tokens

/-- Records the key of an imported file, and tells whether it is new. -/
def markImported (key : UInt64) : Parse Bool := do
  let s ← get
  let (isNew, context) := s.context.markImported key
  set { s with context := context }
  return isNew

def loadFile (t : Token) (path : String) : Parse Source := do
  let s ← get
  let (result, library) := s.session.library.load s.file path
  set { s with session := { s.session with library := library } }
  match result with
  | .ok source => return source
  | .error e => fail t (.directive (.noFile path e))

/-- Reads another file with what is known so far, and gives its entries and what is known afterwards. If it
stops, only the session shows it. -/
def readChild (child : Parse Unit) : Parse (Program × Context) := fun settings s =>
  match child settings { session := s.session, context := s.context } with
  | .ok _ c => .ok (c.program, c.context) { s with session := c.session }
  | .error e c => .error e { s with session := c.session }

/-- Adds the entries of an imported file and takes over what it defines. -/
def absorb (t : Token) (program : Program) (context : Context) : Parse Unit := do
  let s ← get
  let (merged, conflict) := s.context.absorb context
  set { s with program := s.program ++ program, context := merged }
  match conflict with
  | some d => fail t (.directive (.duplicate d))
  | none => return

/-- Imports a file. Headers are only recorded. No file is read twice. `fuel` bounds how deep imports nest. -/
def importFile (fuel : Nat) (t : Token) (path : String) : Parse Unit := do
  if isHeader path then
    if ← markImported (sourceKey path) then emit (.plain t (.header path))
  else
    let source ← loadFile t path
    if ← markImported source.key then
      emit (.plain t (.source source.path))
      match fuel with
      | 0 => fault .endlessImports
      | fuel + 1 =>
        let (program, context) ← readChild do
          let toks ← openFile source.path source.text
          tokens (importFile fuel) toks
        absorb t program context
    else warn t (.imported path)

/-- Reads a main file. The builtin module is imported first, if that is switched on. -/
def mainFile (fuel : Nat) (path text : String) : Parse Unit := do
  let _ ← markImported (sourceKey path)
  let toks ← openFile path text
  if (← read).feature .builtin then
    let index := (← get).session.files.length - 1
    importFile fuel ⟨.endOfFile, "", index, 1, 1, 0⟩ Standard.builtinPath
  tokens (importFile fuel) toks

end Parse

/-- What reading a program gives: why it stopped, if it did, and what was found up to there. -/
structure Compilation where
  stop : Option Stop
  program : Program
  context : Context
  session : Session

def compile (settings : Settings) (library : Library) (path text : String) : Compilation :=
  match Parse.mainFile (library.bound + 1) path text settings
    { session := { library := library }, context := .initial } with
  | .ok _ s => ⟨none, s.program, s.context, s.session⟩
  | .error e s => ⟨some e, s.program, s.context, s.session⟩

namespace Compilation

/-- The reports of all warnings that are switched on, in the order they were raised. -/
def warnings (c : Compilation) (settings : Settings) : String :=
  String.join (c.session.notices.map fun n =>
    Report.warning settings c.session.files n.caution.warning n.token.span n.caution.message)

def diagnostic? (c : Compilation) : Option Diagnostic :=
  match c.stop with
  | some (.problem t p) => some (Report.diagnostic c.session.files t.span p.message)
  | _ => none

/-- Everything that is printed: the warnings and, if there is one, the error. -/
def output (c : Compilation) (settings : Settings) : String :=
  c.warnings settings ++
    match c.stop with
    | some (.problem t p) => Report.error settings.color c.session.files t.span p.message
    | _ => ""

end Compilation

end Impulse
