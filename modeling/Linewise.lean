import Linewise.Main
import Linewise.Proofs.Acyclic
import Linewise.Proofs.Beneath
import Linewise.Proofs.Binding
import Linewise.Proofs.Bracketing
import Linewise.Proofs.Brackets
import Linewise.Proofs.Break
import Linewise.Proofs.Caller
import Linewise.Proofs.Chain
import Linewise.Proofs.Conversion
import Linewise.Proofs.Crossing
import Linewise.Proofs.Definition
import Linewise.Proofs.Display
import Linewise.Proofs.Enclosed
import Linewise.Proofs.Exact
import Linewise.Proofs.Exit
import Linewise.Proofs.Extent
import Linewise.Proofs.Following
import Linewise.Proofs.Halt
import Linewise.Proofs.Header
import Linewise.Proofs.Inline
import Linewise.Proofs.Loading
import Linewise.Proofs.Ordering
import Linewise.Proofs.Precedence
import Linewise.Proofs.Printing
import Linewise.Proofs.Reference
import Linewise.Proofs.Script
import Linewise.Proofs.Shape
import Linewise.Proofs.Stack
import Linewise.Proofs.Termination
import Linewise.Proofs.Undecided
import Linewise.Proofs.WellNested
import Linewise.Text.Continuation
import Linewise.Proofs.World
