import Impulse.Settings
import Impulse.Text.Split
import Impulse.Token

/-!
# Reports

How errors and warnings are printed: one line that names the place and the cause, then the source line
and a caret below the place. A place may lie outside of every file, for instance when the command line
is at fault.
-/

namespace Impulse

structure SourceFile where
  name : String
  text : String

/-- The place a report points at. `file` is an index into the files that were read; an index that is none
of theirs stands for no file. -/
structure Span where
  file : Int := -1
  line : Int := 0
  column : Int := 0
  length : Int := 0

def Token.span (t : Token) : Span :=
  ⟨t.file, t.line, t.column, t.length⟩

/-- A fatal report as it is handed on: the name of the file, the place and the cause. -/
structure Diagnostic where
  file : String
  line : Int
  column : Int
  message : String

def Diagnostic.text (d : Diagnostic) : String :=
  d.file ++ ":" ++ toString d.line ++ ":" ++ toString d.column ++ ": " ++ d.message

namespace Report

def file? (files : List SourceFile) (index : Int) : Option SourceFile :=
  if index < 0 then none else files[index.toNat]?

def fileName (files : List SourceFile) (index : Int) : String :=
  ((file? files index).map (·.name)).getD "unknown"

/-- The text in the given colour of the terminal, or as it is. -/
def paint (color : Bool) (code text : String) : String :=
  if color then "\x1b[" ++ code ++ "m" ++ text ++ "\x1b[0m" else text

/-- A line of a text, counted from one. Numbers outside the text give its first or its last line. -/
def sourceLine (text : String) (line : Int) : String :=
  let lines := Text.splitOn '\n' text
  let index := min (max line 1 - 1).toNat (lines.length - 1)
  lines.getD index ""

/-- A caret with a tail that makes it as wide as the place. -/
def caret (length : Int) : String :=
  "^" ++ Text.repeated "~" (length - 1).toNat

/-- The source line and, below it, a caret at the column. A place without a file or without a line has no
excerpt. -/
def excerpt (color : Bool) (files : List SourceFile) (place : Span) : String :=
  match file? files place.file with
  | none => ""
  | some file =>
    if place.line = 0 then ""
    else "  " ++ sourceLine file.text place.line ++ "\n  "
      ++ Text.repeated " " (max place.column 1 - 1).toNat ++ paint color "32" (caret place.length) ++ "\n"

def placeText (files : List SourceFile) (place : Span) : String :=
  fileName files place.file ++ ":" ++ toString place.line ++ ":" ++ toString place.column ++ ": "

def error (color : Bool) (files : List SourceFile) (place : Span) (message : String) : String :=
  placeText files place ++ paint color "31" "error:" ++ " " ++ message ++ "\n"
    ++ excerpt color files place

/-- The report of a warning, which names its switch. It is empty if the warning is off. -/
def warning (s : Settings) (files : List SourceFile) (w : Warning) (place : Span)
    (message : String) : String :=
  if s.warning w then
    placeText files place ++ paint s.color "33" "warning:" ++ " " ++ message
      ++ " [-W" ++ w.name ++ "]\n" ++ excerpt s.color files place
  else ""

def diagnostic (files : List SourceFile) (place : Span) (message : String) : Diagnostic :=
  ⟨fileName files place.file, place.line, place.column, message⟩

end Report

end Impulse
