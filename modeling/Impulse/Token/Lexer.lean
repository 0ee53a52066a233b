import Impulse.Token
import Impulse.Text.Split

/-!
# Reading tokens

`tokenize` cuts a source text into tokens, the end of the file included. Spaces, tabs and carriage
returns separate tokens; a line end is a token of its own. Each token is recognised from the text in
front of the reader alone, by `Lexeme.read`, which says how many characters it covers; lines and
columns follow from the characters that were covered before.

## Design notes

A bracket group ends at the matching bracket. Quotes hide brackets, a backslash inside quotes hides
the character behind it, and a line end closes a quote that was left open, so a stray apostrophe
hides at most the rest of its line.
-/

namespace Impulse

open Text

inductive LexProblem
  /-- The character begins no token. -/
  | unexpectedCharacter (c : Char)
  /-- A number runs into a letter. -/
  | malformedNumber (next : Char)
  /-- A bracket group has no matching bracket. -/
  | unterminatedGroup
  /-- A string has no closing quote on its line. -/
  | unterminatedString
  /-- A character literal has no closing quote on its line. -/
  | unterminatedCharacter
  /-- There is nothing between the quotes of a character literal. -/
  | emptyCharacter
  deriving DecidableEq, Repr

def LexProblem.message : LexProblem → String
  | unexpectedCharacter c => "Unexpected character: '" ++ c.toString ++ "'"
  | malformedNumber c => "Malformed number literal: unexpected '" ++ c.toString ++ "'"
  | unterminatedGroup => "Unterminated '[' group"
  | unterminatedString => "Unterminated string literal"
  | unterminatedCharacter => "Unterminated character literal"
  | emptyCharacter => "Empty character literal"

/-- A recognised token: what it is, and how many characters it covers. -/
structure Lexeme where
  kind : Token.Kind
  value : String
  size : Nat
  size_pos : 0 < size := by omega

namespace Lexeme

/-- Characters of a name after its first letter. A point joins the parts of a path. -/
def isNamePart (c : Char) : Bool :=
  isLetter c || isDigit c || c == '_' || c == '.'

/-- How far a quoted text runs: whether its closing quote is met, and the number of characters up to
and including that quote, the end of the line or the end of the text. -/
def quotedSize (quote : Char) : List Char → Bool × Nat
  | [] => (false, 0)
  | ['\\'] => (false, 1)
  | '\\' :: _ :: cs =>
    let (closed, n) := quotedSize quote cs
    (closed, n + 2)
  | c :: cs =>
    if c = '\n' then (false, 1)
    else if c = quote then (true, 1)
    else
      let (closed, n) := quotedSize quote cs
      (closed, n + 1)

/-- The number of characters up to and including the bracket that closes a group of the given depth.
`quote` is the quote that is open, if one is. -/
def groupSize (depth : Nat) (quote : Option Char) : List Char → Option Nat
  | [] => none
  | c :: cs =>
    match quote with
    | some q =>
      if c = '\\' then
        match cs with
        | [] => none
        | _ :: cs => (groupSize depth quote cs).map (· + 2)
      else if c = '\n' || c = q then (groupSize depth none cs).map (· + 1)
      else (groupSize depth quote cs).map (· + 1)
    | none =>
      if c = '"' || c = '\'' then (groupSize depth (some c) cs).map (· + 1)
      else if c = '[' then (groupSize (depth + 1) none cs).map (· + 1)
      else if c = ']' then
        if depth ≤ 1 then some 1 else (groupSize (depth - 1) none cs).map (· + 1)
      else (groupSize depth none cs).map (· + 1)

/-- The name or keyword that begins with the letter `c`. -/
def word (c : Char) (cs : List Char) : Lexeme :=
  let tail := cs.takeWhile isNamePart
  let name := String.ofList (c :: tail)
  match Token.keyword? name with
  | some kind => { kind := kind, value := "", size := tail.length + 1 }
  | none => { kind := .ident, value := name, size := tail.length + 1 }

/-- The fractional part of a number, if a point and a digit follow. -/
def fraction : List Char → List Char
  | '.' :: d :: cs => if isDigit d then '.' :: d :: cs.takeWhile isDigit else []
  | _ => []

def decimal (c : Char) (cs : List Char) : Except (LexProblem × Nat) Lexeme :=
  let whole := cs.takeWhile isDigit
  let after := cs.drop whole.length
  let part := fraction after
  let size := whole.length + part.length + 1
  let lexeme : Lexeme :=
    { kind := .number, value := String.ofList (c :: whole ++ part), size := size }
  match after.drop part.length with
  | next :: _ =>
    if isLetter next || next == '_' then .error (.malformedNumber next, size) else .ok lexeme
  | [] => .ok lexeme

def lineComment (cs : List Char) : Lexeme :=
  let body := cs.takeWhile (· != '\n')
  { kind := .comment, value := String.ofList (trimChars body), size := body.length + 2 }

def group (cs : List Char) : Except (LexProblem × Nat) Lexeme :=
  match groupSize 1 none cs with
  | none => .error (.unterminatedGroup, cs.length + 1)
  | some n =>
    .ok { kind := .number, value := String.ofList (trimChars (cs.take (n - 1))), size := n + 1 }

def stringLiteral (cs : List Char) : Except (LexProblem × Nat) Lexeme :=
  let (closed, n) := quotedSize '"' cs
  if closed then
    .ok { kind := .string, value := String.ofList (cs.take (n - 1)), size := n + 1 }
  else .error (.unterminatedString, n + 1)

/-- The character literal whose opening quote is already read. -/
def charLiteral (cs : List Char) : Except (LexProblem × Nat) Lexeme :=
  let (closed, n) := quotedSize '\'' cs
  if !closed then .error (.unterminatedCharacter, n + 1)
  else if n ≤ 1 then .error (.emptyCharacter, n + 1)
  else .ok { kind := .char, value := String.ofList (cs.take (n - 1)), size := n + 1 }

def symbol? : Char → Option Token.Kind
  | '\n' => some .newline
  | '(' => some .lparen
  | ')' => some .rparen
  | '\x7b' => some .lbrace
  | '\x7d' => some .rbrace
  | ';' => some .semicolon
  | ',' => some .comma
  | '|' => some .pipe
  | '^' => some .caret
  | '&' => some .ampersand
  | '$' => some .dollar
  | '@' => some .atSign
  | '=' => some .equals
  | '<' => some .less
  | '>' => some .greater
  | '!' => some .bang
  | _ => none

/-- The token that begins with the character `c` and goes on in `cs`. Failures tell how many characters
were read. Comments are recognised only if `comments` is set. -/
def read (comments : Bool) (c : Char) (cs : List Char) : Except (LexProblem × Nat) Lexeme :=
  if comments && c == '/' && cs.head? == some '/' then .ok (lineComment cs.tail)
  else if isLetter c || c == '_' then .ok (word c cs)
  else if isDigit c then decimal c cs
  else if c == '[' then group cs
  else if c == '"' then stringLiteral cs
  else if c == '\'' then charLiteral cs
  else if c == ':' then
    if cs.head? == some ':' then .ok { kind := .doubleColon, value := "", size := 2 }
    else .ok { kind := .colon, value := "", size := 1 }
  else match symbol? c with
    | some kind => .ok { kind := kind, value := "", size := 1 }
    | none => .error (.unexpectedCharacter c, 1)

end Lexeme

/-- A place in a text: line and column, both counted from one. -/
structure Place where
  line : Nat
  column : Nat
  deriving DecidableEq, Repr

namespace Place

def start : Place :=
  ⟨1, 1⟩

def next (p : Place) (c : Char) : Place :=
  if c = '\n' then ⟨p.line + 1, 1⟩ else ⟨p.line, p.column + 1⟩

def after (p : Place) (cs : List Char) : Place :=
  cs.foldl next p

end Place

def isSeparator (c : Char) : Bool :=
  c == ' ' || c == '\t' || c == '\r'

/-- What reading a text gives: the tokens in order and, if reading stopped early, the place it stopped
at and why. -/
structure Tokens where
  tokens : List Token
  failure : Option (Token × LexProblem) := none

namespace Tokens

def push (t : Token) (ts : Tokens) : Tokens :=
  { ts with tokens := t :: ts.tokens }

/-- Reads the tokens of `cs`, which stands at place `p` of the file with index `file`. -/
def scan (comments : Bool) (file : Nat) (p : Place) (cs : List Char) : Tokens :=
  let blanks := cs.takeWhile isSeparator
  let p := p.after blanks
  match _h : cs.dropWhile isSeparator with
  | [] => { tokens := [⟨.endOfFile, "", file, p.line, p.column, 0⟩] }
  | c :: rest =>
    match Lexeme.read comments c rest with
    | .error (problem, size) =>
      { tokens := [], failure := some (⟨.endOfFile, "", file, p.line, p.column, size⟩, problem) }
    | .ok lexeme =>
      let token : Token := ⟨lexeme.kind, lexeme.value, file, p.line, p.column, lexeme.size⟩
      push token
        (scan comments file (p.after ((c :: rest).take lexeme.size)) ((c :: rest).drop lexeme.size))
termination_by cs.length
decreasing_by
  have shorter : (cs.dropWhile isSeparator).length ≤ cs.length :=
    (List.dropWhile_suffix isSeparator).length_le
  have positive := lexeme.size_pos
  rw [_h, List.length_cons] at shorter
  rw [List.length_drop, List.length_cons]
  omega

end Tokens

/-- The tokens of a source text, the end of the file included. -/
def tokenize (comments : Bool) (file : Nat) (text : String) : Tokens :=
  Tokens.scan comments file Place.start text.toList

end Impulse
