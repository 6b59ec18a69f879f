import MiddleEnd.Closure.Text
import MiddleEnd.Compile
import MiddleEnd.Config
import MiddleEnd.Knf.Text
import MiddleEnd.Proofs.Closure.DirectCalls
import MiddleEnd.Proofs.Closure.Emission
import MiddleEnd.Proofs.Closure.Typing
import MiddleEnd.Proofs.Compilation
import MiddleEnd.Proofs.Knf.Convergence
import MiddleEnd.Proofs.Knf.DeadBindings
import MiddleEnd.Proofs.Knf.LoweringNames
import MiddleEnd.Proofs.Knf.LoweringTypes
import MiddleEnd.Proofs.Knf.NormalForms
import MiddleEnd.Proofs.Knf.OpenRewrites
import MiddleEnd.Proofs.Knf.Substitution
import MiddleEnd.Proofs.Ty.Calls
import MiddleEnd.Proofs.Typing.ExternalNames
import MiddleEnd.Proofs.Typing.Sharing
import MiddleEnd.Proofs.Typing.DefaultedClasses
import MiddleEnd.Proofs.Typing.Conflicts
import MiddleEnd.Proofs.Double.Numbers
import MiddleEnd.Proofs.Knf.FoldedComparisons
import MiddleEnd.Proofs.Knf.LoweringClosed
import MiddleEnd.Proofs.Ty.Text
import MiddleEnd.Proofs.Text.Dumps
