import Invariance.Engine.Checker
import Invariance.Proofs.Bits.Agreement
import Invariance.Proofs.Bits.Allocation
import Invariance.Proofs.Bits.Circuit
import Invariance.Proofs.Bits.Decoding
import Invariance.Proofs.Bits.Encoding
import Invariance.Proofs.Bits.Invariants
import Invariance.Proofs.Bits.Readback
import Invariance.Proofs.Bits.Reproduction
import Invariance.Proofs.Bits.RoundTrip
import Invariance.Proofs.Bits.Simplification
import Invariance.Proofs.Clocks
import Invariance.Proofs.Computation
import Invariance.Proofs.Diagram.Choice
import Invariance.Proofs.Diagram.Coincidence
import Invariance.Proofs.Diagram.Connectives
import Invariance.Proofs.Diagram.Counting
import Invariance.Proofs.Diagram.Cubes
import Invariance.Proofs.Diagram.LeastModels
import Invariance.Proofs.Diagram.Manager
import Invariance.Proofs.Diagram.Models
import Invariance.Proofs.Diagram.Nodes
import Invariance.Proofs.Diagram.Operations
import Invariance.Proofs.Diagram.Quantifier
import Invariance.Proofs.Diagram.Replay
import Invariance.Proofs.Diagram.Transparency
import Invariance.Proofs.Diagram.Traversal
import Invariance.Proofs.Dynamics.Finite
import Invariance.Proofs.Dynamics.Frames
import Invariance.Proofs.Dynamics.Paths
import Invariance.Proofs.Engine.Accounts
import Invariance.Proofs.Engine.Chronology
import Invariance.Proofs.Engine.Completeness
import Invariance.Proofs.Engine.Constraints
import Invariance.Proofs.Engine.Conversations
import Invariance.Proofs.Engine.Counterexamples
import Invariance.Proofs.Engine.Depths
import Invariance.Proofs.Engine.Induction
import Invariance.Proofs.Engine.Interpolation
import Invariance.Proofs.Engine.Progress
import Invariance.Proofs.Engine.Protocol
import Invariance.Proofs.Engine.Reindexing
import Invariance.Proofs.Engine.Rounds
import Invariance.Proofs.Engine.Schedules
import Invariance.Proofs.Engine.Unrolling
import Invariance.Proofs.Engine.Updates
import Invariance.Proofs.Engine.Violations
import Invariance.Proofs.Engine.Visibility
import Invariance.Proofs.Formula.Exactness
import Invariance.Proofs.Formula.Folding
import Invariance.Proofs.Formula.Outcomes
import Invariance.Proofs.Formula.Rebuilding
import Invariance.Proofs.Slots.Histories
import Invariance.Proofs.Slots.Pairing
import Invariance.Proofs.Solver.Calls
import Invariance.Proofs.Solver.Capacity
import Invariance.Proofs.Solver.Contract
import Invariance.Proofs.Solver.Counting
import Invariance.Proofs.Solver.Decision
import Invariance.Proofs.Solver.Failures
import Invariance.Proofs.Solver.Ledger
import Invariance.Proofs.Words
import Invariance.Proofs.Wrapping
import Invariance.Solver.Decision
import Invariance.Solver.Script
