import BraceLang.Artifacts
import BraceLang.Proofs.Stops
import BraceLang.Proofs.Tac.Machine
import BraceLang.Proofs.Tac.Folding
import BraceLang.Proofs.Tac.Elimination
import BraceLang.Proofs.Tac.Optimization
import BraceLang.Proofs.Structured
import BraceLang.Proofs.Trees
import BraceLang.Proofs.Tac.Names
import BraceLang.Proofs.Tac.Represent
import BraceLang.Proofs.Tac.Lowering
import BraceLang.Proofs.Assembly.Machine
import BraceLang.Proofs.Assembly.Reference
import BraceLang.Proofs.Assembly.Emission
import BraceLang.Proofs.Assembly.Expressions
import BraceLang.Proofs.Check.Meanings
import BraceLang.Proofs.Check.Growth
import BraceLang.Proofs.Check.Accepted
import BraceLang.Proofs.Assembly.Slots
import BraceLang.Proofs.Visits
import BraceLang.Proofs.Alignment
import BraceLang.Proofs.Agreement
import BraceLang.Proofs.WholePrograms
import BraceLang.Proofs.Tac.FixedPoint
import BraceLang.Proofs.Tac.Globals
import BraceLang.Proofs.Assembly.Layout
import BraceLang.Proofs.Assembly.Moments
import BraceLang.Proofs.Check.Rules
import BraceLang.Proofs.Check.Typing
import BraceLang.Proofs.Check.Entering
import BraceLang.Proofs.Check.Exactness
import BraceLang.Proofs.Assembly.Outline
import BraceLang.Proofs.Assembly.Paths
import BraceLang.Proofs.Assembly.Discipline
import BraceLang.Proofs.Assembly.ControlFlow
import BraceLang.Proofs.Calls
import BraceLang.Proofs.Assembly.Conventions
import BraceLang.Proofs.Occurrences
import BraceLang.Proofs.Resolution
import BraceLang.Proofs.Tac.Units
import BraceLang.Proofs.Check.Loops
import BraceLang.Proofs.Moves
import BraceLang.Proofs.Tac.Exits
import BraceLang.Proofs.Assembly.References
import BraceLang.Proofs.Assembly.Closure
import BraceLang.Proofs.Definitions
import BraceLang.Proofs.Assembly.Text
import BraceLang.Proofs.Assembly.Closed
import BraceLang.Proofs.Tac.LivePaths
import BraceLang.Proofs.Tac.LockStep
import BraceLang.Proofs.Tac.Activations
import BraceLang.Proofs.Tac.EvaluationOrder
import BraceLang.Proofs.Binary64
import BraceLang.Proofs.Numerals
import BraceLang.Proofs.Tac.Literals
import BraceLang.Proofs.Tac.TypedConstants
import BraceLang.Proofs.Tac.Operands
import BraceLang.Proofs.Tac.Acts
import BraceLang.Proofs.Tac.SafeElimination
import BraceLang.Proofs.Tac.Skeleton
import BraceLang.Proofs.Tac.SingleAssignment
import BraceLang.Proofs.Tac.Cells
import BraceLang.Proofs.Tac.FirstElements
import BraceLang.Proofs.Tac.Renaming
import BraceLang.Proofs.Assembly.FpuDepth
import BraceLang.Proofs.Assembly.Frames
import BraceLang.Proofs.Assembly.Labels
import BraceLang.Proofs.Check.Restoring
import BraceLang.Proofs.Check.Signatures
import BraceLang.Proofs.Check.Origins
import BraceLang.Proofs.Check.Sweeping
import BraceLang.Proofs.Check.Statistics
import BraceLang.Proofs.Assembly.Arithmetic
import BraceLang.Proofs.Histories
import BraceLang.Proofs.Assembly.Characters
