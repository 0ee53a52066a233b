import Impulse.Node.Format
import Impulse.Text.Split

/-!
# Flat names

The target language has no namespaces, so the names of functions and of constants inside a namespace
are made flat: every point becomes two underscores. Field paths of variables stay as they are. A
number that shows its arithmetic takes its text from the arithmetic with flat names.
-/

namespace Impulse

def flatName (name : String) : String :=
  Text.replaceChar '.' "__" name

/-- The form with its own names made flat, given children that already are. -/
def Form.flat (form : Form Node) : Form Node :=
  match form with
  | number value expr => number (if expr.isAbsent then value else expr.text) expr
  | function sig => function { sig with name := flatName sig.name }
  | call x args => call (flatName x) args
  | name x isFlat => name (if isFlat then flatName x else x) isFlat
  | declare x ty value const global isFlat =>
    declare (if isFlat then flatName x else x) ty value const global isFlat
  | other => other

def Node.flat (n : Node) : Node :=
  n.fold absent fun token ty form => node token ty form.flat

end Impulse
