import Impulse.Text.Class

/-!
# Decimal numerals

Reading integers in base ten. A numeral is a non-empty run of the digits `0` to `9`, with or without
a sign in front.
-/

namespace Impulse.Text

/-- The value of the digits `cs` read after the value `acc`, or nothing if one is no digit. -/
def digitsValue? (acc : Nat) : List Char → Option Nat
  | [] => some acc
  | c :: cs => if isAsciiDigit c then digitsValue? (acc * 10 + (c.toNat - '0'.toNat)) cs else none

def natural? : List Char → Option Nat
  | [] => none
  | cs => digitsValue? 0 cs

def integer? (s : String) : Option Int :=
  match s.toList with
  | '-' :: cs => (natural? cs).map fun n => -(n : Int)
  | '+' :: cs => (natural? cs).map Int.ofNat
  | cs => (natural? cs).map Int.ofNat

/-- The value of a signed numeral that fits in a 64-bit word. -/
def size? (s : String) : Option Int :=
  (integer? s).filter fun n => -Int.pow 2 63 ≤ n && n < Int.pow 2 63

/-- Digits and, if `point` allows one, a single point among them. -/
def isNumberTail (point : Bool) : List Char → Bool
  | [] => true
  | c :: cs =>
    if isAsciiDigit c then isNumberTail point cs
    else c == '.' && point && isNumberTail false cs

/-- A non-empty run of digits in which one point may stand, but not in front. -/
def isNumber (s : String) : Bool :=
  match s.toList with
  | [] => false
  | c :: cs => isAsciiDigit c && isNumberTail true cs

end Impulse.Text
