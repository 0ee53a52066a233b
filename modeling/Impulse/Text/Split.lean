import Impulse.Text.Class

/-!
# Cutting text

Operations that cut a text at characters: at every separator, at white space, at the first or the
last occurrence of a character, and at both ends. They are defined on the list of characters of the
text, so that each one is a plain recursion over that list.
-/

namespace Impulse.Text

/-- The pieces of `cs` between the characters that satisfy `sep`. There is one piece more than there
are such characters. -/
def splitWhere (sep : Char → Bool) : List Char → List (List Char)
  | [] => [[]]
  | c :: cs =>
    if sep c then [] :: splitWhere sep cs
    else match splitWhere sep cs with
      | [] => [[c]]
      | piece :: pieces => (c :: piece) :: pieces

/-- The pieces of `s` between the occurrences of `sep`. -/
def splitOn (sep : Char) (s : String) : List String :=
  (splitWhere (· == sep) s.toList).map String.ofList

/-- The characters of `cs` without the blanks at both ends. -/
def trimChars (cs : List Char) : List Char :=
  ((cs.dropWhile isBlank).reverse.dropWhile isBlank).reverse

def trim (s : String) : String :=
  String.ofList (trimChars s.toList)

/-- The maximal pieces of `s` without blanks, in order. -/
def words (s : String) : List String :=
  ((splitWhere isBlank s.toList).filter (· ≠ [])).map String.ofList

/-- The two sides of the first `sep`, or nothing if there is none. -/
def cut? (sep : Char) (s : String) : Option (String × String) :=
  let before := s.toList.takeWhile (· != sep)
  match s.toList.drop before.length with
  | [] => none
  | _ :: after => some (String.ofList before, String.ofList after)

/-- The two sides of the last `sep`, or nothing if there is none. -/
def cutLast? (sep : Char) (s : String) : Option (String × String) :=
  let after := s.toList.reverse.takeWhile (· != sep)
  match s.toList.reverse.drop after.length with
  | [] => none
  | _ :: before => some (String.ofList before.reverse, String.ofList after.reverse)

def contains (s : String) (c : Char) : Bool :=
  s.toList.contains c

def startsWith (s start : String) : Bool :=
  start.toList.isPrefixOf s.toList

def endsWith (s tail : String) : Bool :=
  tail.toList.isSuffixOf s.toList

def dropChars (n : Nat) (s : String) : String :=
  String.ofList (s.toList.drop n)

/-- The text `s` with every `c` written as `replacement`. -/
def replaceChar (c : Char) (replacement : String) (s : String) : String :=
  String.ofList (s.toList.flatMap fun d => if d = c then replacement.toList else [d])

def repeated (s : String) : Nat → String
  | 0 => ""
  | n + 1 => s ++ repeated s n

/-- The text followed by as many spaces as bring it to `width` characters. -/
def padRight (width : Nat) (s : String) : String :=
  s ++ repeated " " (width - s.length)

end Impulse.Text
