import Impulse.Text.Split

/-!
# Wrapped text

The words of a text set into lines, each line as full as it can be. Widths are counted in bytes of
the UTF-8 encoding. A word wider than the line has a line of its own.
-/

namespace Impulse.Text

/-- The lines that begin with `line` and go on with the given words: a word joins the current line if
the line stays within `width` bytes, and opens the next line otherwise. -/
def fill (width : Int) (line : String) : List String → List String
  | [] => [line]
  | word :: rest =>
    if (line.utf8ByteSize + 1 + word.utf8ByteSize : Int) > width then
      line :: fill width word rest
    else fill width (line ++ " " ++ word) rest

/-- The words of `text` in lines of at most `width` bytes. -/
def wrap (width : Int) (text : String) : List String :=
  match words text with
  | [] => []
  | word :: rest => fill width word rest

end Impulse.Text
