/-!
# Tokens

A token is one lexical unit of a source file: its kind, the text it carries and where it stands. Names,
strings, characters and numbers carry text; the kind says everything about the other tokens. A bracket
group `[ … ]` is one number token that carries the unread text between the brackets.
-/

namespace Impulse

inductive Token.Kind
  | endOfFile
  | comment
  | newline
  | ident
  | string
  | char
  | number
  | kwIf
  | kwOrIf
  | kwElse
  | kwSwitch
  | kwCase
  | kwFallthrough
  | kwDefault
  | kwLoop
  | kwFor
  | kwIn
  | kwDefer
  | kwReturn
  | kwBreak
  | kwContinue
  | kwStruct
  | kwEnum
  | kwAnd
  | kwOr
  | kwTrue
  | kwFalse
  | lparen
  | rparen
  | lbrace
  | rbrace
  | colon
  | doubleColon
  | semicolon
  | comma
  | pipe
  | caret
  | ampersand
  | dollar
  | atSign
  | equals
  | less
  | greater
  | bang
  deriving DecidableEq, Repr, Inhabited

/-- A lexical unit of the file with index `file`. Lines and columns count from one, and `length` is the
number of characters it covers. -/
structure Token where
  kind : Token.Kind
  value : String
  file : Nat
  line : Nat
  column : Nat
  length : Nat
  deriving DecidableEq, Repr, Inhabited

namespace Token

def keywords : List (String × Kind) :=
  [("if", .kwIf), ("orif", .kwOrIf), ("else", .kwElse), ("switch", .kwSwitch), ("case", .kwCase),
   ("fallthrough", .kwFallthrough), ("default", .kwDefault), ("loop", .kwLoop), ("for", .kwFor),
   ("in", .kwIn), ("defer", .kwDefer), ("return", .kwReturn), ("break", .kwBreak),
   ("continue", .kwContinue), ("struct", .kwStruct), ("enum", .kwEnum), ("and", .kwAnd),
   ("or", .kwOr), ("true", .kwTrue), ("false", .kwFalse)]

def keyword? (word : String) : Option Kind :=
  (keywords.find? (·.1 == word)).map (·.2)

/-- How a kind of token is spelled, or what it is called when its spelling varies. -/
def Kind.text : Kind → String
  | endOfFile => "end of file"
  | comment => "comment"
  | newline => "newline"
  | ident => "identifier"
  | string => "string"
  | char => "char"
  | number => "integer"
  | kwIf => "if"
  | kwOrIf => "orif"
  | kwElse => "else"
  | kwSwitch => "switch"
  | kwCase => "case"
  | kwFallthrough => "fallthrough"
  | kwDefault => "default"
  | kwLoop => "loop"
  | kwFor => "for"
  | kwIn => "in"
  | kwDefer => "defer"
  | kwReturn => "return"
  | kwBreak => "break"
  | kwContinue => "continue"
  | kwStruct => "struct"
  | kwEnum => "enum"
  | kwAnd => "and"
  | kwOr => "or"
  | kwTrue => "true"
  | kwFalse => "false"
  | lparen => "("
  | rparen => ")"
  | lbrace => "\x7b"
  | rbrace => "\x7d"
  | colon => ":"
  | doubleColon => "::"
  | semicolon => ";"
  | comma => ","
  | pipe => "|"
  | caret => "^"
  | ampersand => "&"
  | dollar => "$"
  | atSign => "@"
  | equals => "="
  | less => "<"
  | greater => ">"
  | bang => "!"

def Kind.all : List Kind :=
  [endOfFile, comment, newline, ident, string, char, number, kwIf, kwOrIf, kwElse, kwSwitch, kwCase,
   kwFallthrough, kwDefault, kwLoop, kwFor, kwIn, kwDefer, kwReturn, kwBreak, kwContinue, kwStruct,
   kwEnum, kwAnd, kwOr, kwTrue, kwFalse, lparen, rparen, lbrace, rbrace, colon, doubleColon, semicolon,
   comma, pipe, caret, ampersand, dollar, atSign, equals, less, greater, bang]

def Kind.ofText? (s : String) : Option Kind :=
  Kind.all.find? (·.text == s)

/-- The token roughly as it stands in the source. A bracket group shows its inner text only. -/
def text (t : Token) : String :=
  match t.kind with
  | .ident | .number => t.value
  | .string => "\"" ++ t.value ++ "\""
  | .char => "'" ++ t.value ++ "'"
  | kind => kind.text

/-- Tokens without meaning between statements: comments and line ends. -/
def isTrivia (t : Token) : Bool :=
  t.kind = .comment || t.kind = .newline

end Token

end Impulse
