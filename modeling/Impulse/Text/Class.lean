import Impulse.Text.Letter
import Impulse.Text.Digit
import Impulse.Text.Printable

/-!
# Character classes

The four classes of characters the language knows: letters and decimal digits make up names and
numbers, blanks separate words, and printable characters stand for themselves inside quotes. Each
class is decided by the code point alone. For ASCII the classes are spelled out, so that no table is
searched; beyond ASCII they are read off the tables of the general categories.
-/

namespace Impulse.Text

/-- Whether the code point of `c` lies in one of the closed `ranges`. -/
def inRanges (ranges : List (Nat × Nat)) (c : Char) : Bool :=
  ranges.any fun r => r.1 ≤ c.toNat && c.toNat ≤ r.2

/-- The closed ranges of a class, from how many code points lie by turns outside of the class and in it. -/
def ranges (first : Nat) : List Nat → List (Nat × Nat)
  | outside :: inside :: rest =>
    let next := first + outside + inside
    (first + outside, next - 1) :: ranges next rest
  | _ => []

def letterRanges : List (Nat × Nat) :=
  ranges 0 letterRuns

def digitRanges : List (Nat × Nat) :=
  ranges 0 digitRuns

def printableRanges : List (Nat × Nat) :=
  ranges 0 printableRuns

def isLetter (c : Char) : Bool :=
  if c.toNat < 128 then c.isAlpha else inRanges letterRanges c

def isDigit (c : Char) : Bool :=
  if c.toNat < 128 then c.isDigit else inRanges digitRanges c

/-- The digits `0` to `9`, the only ones whose value is read. -/
def isAsciiDigit (c : Char) : Bool :=
  '0' ≤ c && c ≤ '9'

/-- Closed ranges of the code points that are white space. -/
def blankRanges : List (Nat × Nat) :=
  [(0x9, 0xD), (0x20, 0x20), (0x85, 0x85), (0xA0, 0xA0), (0x1680, 0x1680), (0x2000, 0x200A),
   (0x2028, 0x2029), (0x202F, 0x202F), (0x205F, 0x205F), (0x3000, 0x3000)]

def isBlank (c : Char) : Bool :=
  inRanges blankRanges c

/-- Characters that are shown as they are inside quotes. -/
def isPrintable (c : Char) : Bool :=
  if c.toNat < 128 then 0x20 ≤ c.toNat && c.toNat ≤ 0x7E else inRanges printableRanges c

end Impulse.Text
