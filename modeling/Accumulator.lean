import Accumulator.Machine.Run
import Accumulator.Main
import Accumulator.Proofs.Peephole.Sound
import Accumulator.Proofs.Draft
import Accumulator.Proofs.Triple.Merge
import Accumulator.Proofs.Triple.Optimize
import Accumulator.Proofs.Triple.Coherent
import Accumulator.Proofs.Triple.Legal
import Accumulator.Proofs.Select.Truthful
import Accumulator.Proofs.Compilation
import Accumulator.Proofs.Machine.Walk
import Accumulator.Proofs.Peephole.Absolute
import Accumulator.Proofs.Select.Operation
import Accumulator.Proofs.Select.Light
import Accumulator.Proofs.Select.Operand
import Accumulator.Proofs.Select.ByteOperation
import Accumulator.Proofs.Select.WordOperation
import Accumulator.Proofs.Select.Assignment
import Accumulator.Proofs.Select.Statement
import Accumulator.Proofs.Select.Element
import Accumulator.Proofs.Statement.Basic
import Accumulator.Proofs.Statement.Scalar
import Accumulator.Proofs.Statement.Access
import Accumulator.Proofs.Machine.Contract
import Accumulator.Proofs.Triple.Fixpoint
import Accumulator.Proofs.Literal
import Accumulator.Proofs.Peephole.Control
import Accumulator.Proofs.Select.Placement
import Accumulator.Proofs.Peephole.Tidy
import Accumulator.Proofs.Select.Computation
import Accumulator.Proofs.Select.Following
import Accumulator.Proofs.Select.Performing
import Accumulator.Proofs.Select.Sound
import Accumulator.Proofs.Select.Evaluation
import Accumulator.Proofs.Unfolded
import Accumulator.Proofs.RegisterFile.Action
import Accumulator.Proofs.Storage
import Accumulator.Proofs.Listing
import Accumulator.Proofs.Reader
import Accumulator.Proofs.Triple.Marked
import Accumulator.Proofs.Draft.Marked
import Accumulator.Proofs.Select.Copies
import Accumulator.Proofs.Select.PairLoads
import Accumulator.Proofs.Select.Valuation
import Accumulator.Proofs.Correctness
