import DisciplinedConvex.Expr.Record
import DisciplinedConvex.Session.Run
import DisciplinedConvex.Proofs.Built
import DisciplinedConvex.Proofs.Shape
import DisciplinedConvex.Proofs.Reach
import DisciplinedConvex.Proofs.Checked
import DisciplinedConvex.Proofs.Flatten
import DisciplinedConvex.Proofs.Meaning.Atom
import DisciplinedConvex.Proofs.Meaning.Expr
import DisciplinedConvex.Proofs.Meaning.Shape
import DisciplinedConvex.Proofs.Meaning.Grid
import DisciplinedConvex.Proofs.Meaning.Evaluation
import DisciplinedConvex.Proofs.Storage.Positions
import DisciplinedConvex.Proofs.Sign.Basic
import DisciplinedConvex.Proofs.Power
import DisciplinedConvex.Proofs.Sign.Sound
import DisciplinedConvex.Proofs.Curvature.Bound
import DisciplinedConvex.Proofs.Curvature.Number
import DisciplinedConvex.Proofs.Curvature.Table
import DisciplinedConvex.Proofs.Curvature.Sound
import DisciplinedConvex.Proofs.Curvature.Power
import DisciplinedConvex.Proofs.Meaning.Real
import DisciplinedConvex.Proofs.Meaning.Agreement
import DisciplinedConvex.Proofs.Feasible
import DisciplinedConvex.Proofs.Comparison
import DisciplinedConvex.Proofs.Curvature.Below
import DisciplinedConvex.Proofs.Tighten.Mirror
import DisciplinedConvex.Proofs.Tighten.Keep
import DisciplinedConvex.Proofs.Storage.Negation
import DisciplinedConvex.Proofs.Storage.Boxed
import DisciplinedConvex.Proofs.Definiteness.Sound
import DisciplinedConvex.Proofs.Gate
import DisciplinedConvex.Proofs.Leaves.Made
import DisciplinedConvex.Proofs.Leaves.Session
import DisciplinedConvex.Proofs.Leaves.Books
import DisciplinedConvex.Proofs.Storage.Difference
import DisciplinedConvex.Proofs.Arguments.Sum
import DisciplinedConvex.Proofs.Arguments.Duality
import DisciplinedConvex.Proofs.Printing.Regroup
import DisciplinedConvex.Proofs.Arguments.Transpose
import DisciplinedConvex.Proofs.Derived
import DisciplinedConvex.Proofs.Arguments.Closed
import DisciplinedConvex.Proofs.Arguments.Position
import DisciplinedConvex.Proofs.Selection
import DisciplinedConvex.Proofs.Entries
import DisciplinedConvex.Proofs.Printing.Minus
import DisciplinedConvex.Proofs.Arguments.Dot
import DisciplinedConvex.Proofs.Reading
import DisciplinedConvex.Proofs.Curvature.Lattice
import DisciplinedConvex.Proofs.Sign.Exact
import DisciplinedConvex.Proofs.Arguments.Broadcast
