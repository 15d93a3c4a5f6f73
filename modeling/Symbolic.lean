import Symbolic.Expr.Outline
import Symbolic.Expr.Pairing
import Symbolic.Grammar.Parser
import Symbolic.Numeric.Evaluate
import Symbolic.Search.Equal
import Symbolic.Proofs.Canonical.FixedPoint
import Symbolic.Proofs.Canonical.Powers
import Symbolic.Proofs.Canonical.Preorder
import Symbolic.Proofs.Canonical.Termination
import Symbolic.Proofs.Exact.Constructors
import Symbolic.Proofs.Expr.Expanded
import Symbolic.Proofs.Expr.Reordered
import Symbolic.Proofs.Numeric.Ordered
import Symbolic.Proofs.Program.Compile
import Symbolic.Proofs.Program.Allocation
import Symbolic.Proofs.Program.Pressure
import Symbolic.Proofs.Program.Columns
import Symbolic.Proofs.Program.Heights
import Symbolic.Proofs.Program.Parameters
import Symbolic.Proofs.Program.Sharing
import Symbolic.Proofs.Pattern.Applied
import Symbolic.Proofs.Pattern.Algebra
import Symbolic.Proofs.Pattern.Partitions
import Symbolic.Proofs.Pattern.Permutations
import Symbolic.Proofs.Search.Definitions
import Symbolic.Proofs.Search.Exact
import Symbolic.Proofs.Search.Exhaustive
import Symbolic.Proofs.Search.Levels
import Symbolic.Proofs.Grammar.Accepted
import Symbolic.Proofs.Grammar.Nesting
import Symbolic.Proofs.Grammar.RoundTrip
import Symbolic.Proofs.Grammar.Words
import Symbolic.Proofs.Rational.Power
