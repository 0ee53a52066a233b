import Impulse.Main
import Impulse.Proofs.ImportedOnce
import Impulse.Proofs.Flattening
import Impulse.Proofs.Constants
import Impulse.Proofs.Capture
import Impulse.Proofs.FlatTrees
import Impulse.Proofs.Layout
import Impulse.Proofs.CacheRecovery
import Impulse.Proofs.ExactFolding
import Impulse.Proofs.FoldedMeaning
import Impulse.Proofs.ListElements
import Impulse.Proofs.Compatibility
import Impulse.Proofs.EnumConstants
import Impulse.Proofs.LengthTexts
import Impulse.Proofs.ErrorPlaces
import Impulse.Proofs.Branches
import Impulse.Proofs.Conditions
import Impulse.Proofs.Excerpts
import Impulse.Proofs.ArrayLengths
import Impulse.Proofs.MethodCalls
import Impulse.Proofs.MethodTypes
import Impulse.Proofs.StoredNames
import Impulse.Proofs.Termination
import Impulse.Proofs.Containment
import Impulse.Proofs.SwitchPairs
import Impulse.Proofs.Wrapping
