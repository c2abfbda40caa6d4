import Anyonic.Amplitude
import Anyonic.Anyon
import Anyonic.Anyon.Model
import Anyonic.Binary64
import Anyonic.Braid
import Anyonic.Circuit
import Anyonic.Circuit.Depth
import Anyonic.Circuit.Error
import Anyonic.Compile.Compiler
import Anyonic.Compile.Decomposition
import Anyonic.Compile.Error
import Anyonic.Compile.Options
import Anyonic.Decimal.Rounding
import Anyonic.Decimal.Shortest
import Anyonic.Gate
import Anyonic.Gate.Matrix
import Anyonic.Instruction
import Anyonic.Lowering
import Anyonic.Numeral
import Anyonic.Peephole.CliffordSweep
import Anyonic.Peephole.Commutation
import Anyonic.Peephole.GateMerging
import Anyonic.Peephole.InverseCancellation
import Anyonic.Peephole.Pipeline
import Anyonic.Peephole.Report
import Anyonic.Peephole.WireTemplate
import Anyonic.PhaseLattice
import Anyonic.Proofs.Circuit.Chains
import Anyonic.Proofs.Circuit.Depth
import Anyonic.Proofs.Compile.Accounting
import Anyonic.Proofs.Compile.Agreement
import Anyonic.Proofs.Compile.Budget
import Anyonic.Proofs.Compile.Fragment
import Anyonic.Proofs.Compile.Halfway
import Anyonic.Proofs.Compile.Outcome
import Anyonic.Proofs.Compile.Strands
import Anyonic.Proofs.Compile.Weave
import Anyonic.Proofs.Double.Integers
import Anyonic.Proofs.Double.Laws
import Anyonic.Proofs.Double.Order
import Anyonic.Proofs.Double.Parts
import Anyonic.Proofs.Double.QuarterTurn
import Anyonic.Proofs.Double.Rounding
import Anyonic.Proofs.Exact.Discrepancy
import Anyonic.Proofs.Exact.Errors
import Anyonic.Proofs.Exact.Fingerprint
import Anyonic.Proofs.Exact.Lattice
import Anyonic.Proofs.Exact.Matrix
import Anyonic.Proofs.Exact.Phases
import Anyonic.Proofs.Exact.Scalar
import Anyonic.Proofs.Gate.Turn
import Anyonic.Proofs.Lowering.Locality
import Anyonic.Proofs.Lowering.Operands
import Anyonic.Proofs.Lowering.Outcome
import Anyonic.Proofs.Lowering.Rules
import Anyonic.Proofs.Lowering.Soundness
import Anyonic.Proofs.Operator.Family
import Anyonic.Proofs.Operator.Gates
import Anyonic.Proofs.Operator.Phases
import Anyonic.Proofs.Operator.Register
import Anyonic.Proofs.Operator.Semantics
import Anyonic.Proofs.Peephole.Angles
import Anyonic.Proofs.Peephole.Applied
import Anyonic.Proofs.Peephole.CliffordSweep
import Anyonic.Proofs.Peephole.Commutation
import Anyonic.Proofs.Peephole.CommutationTest
import Anyonic.Proofs.Peephole.Figures
import Anyonic.Proofs.Peephole.FixedPoint
import Anyonic.Proofs.Peephole.Frame
import Anyonic.Proofs.Peephole.Inverse
import Anyonic.Proofs.Peephole.Levels
import Anyonic.Proofs.Peephole.NormalForm
import Anyonic.Proofs.Peephole.Soundness
import Anyonic.Proofs.Peephole.Step
import Anyonic.Proofs.Peephole.WellFormed
import Anyonic.Proofs.Reading.Cancellation
import Anyonic.Proofs.Reading.Report
import Anyonic.Proofs.Reading.RoundTrip
import Anyonic.Proofs.Scalar.Laws
import Anyonic.Proofs.Search.BaseSet
import Anyonic.Proofs.Search.Bounds
import Anyonic.Proofs.Search.Completeness
import Anyonic.Proofs.Search.Ising
import Anyonic.Proofs.Search.Nearest
import Anyonic.Proofs.Search.Representation
import Anyonic.Proofs.WellFormed
import Anyonic.QubitMatrix
import Anyonic.Reading
import Anyonic.Scalar
import Anyonic.Scalar.Double
import Anyonic.Search.BaseSet
import Anyonic.Search.Letter
import Anyonic.Search.Nearest
import Anyonic.Workbench
