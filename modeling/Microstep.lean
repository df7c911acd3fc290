import Microstep.Player
import Microstep.Program.Occurrence
import Microstep.Proofs.Cursor
import Microstep.Proofs.Simulation
import Microstep.TypeTable.Explicit
import Microstep.Proofs.Transition
import Microstep.Proofs.Bracketing
import Microstep.Proofs.Isolation
import Microstep.Proofs.PositionOrder
import Microstep.Proofs.Activation
import Microstep.Proofs.Occurrence
import Microstep.Proofs.Budget
import Microstep.Proofs.Termination
import Microstep.Proofs.Trace
import Microstep.Proofs.Visit
import Microstep.Proofs.Origin
import Microstep.Proofs.Objects
import Microstep.Proofs.Linkage
import Microstep.Program.Constants
import Microstep.Proofs.Liveness
import Microstep.Proofs.References
import Microstep.Player.Action
import Microstep.Proofs.Navigation
import Microstep.Proofs.Ending
import Microstep.Proofs.StepKinds
import Microstep.Proofs.Mutation
import Microstep.Proofs.Replacement
import Microstep.Proofs.Desugaring
import Microstep.Proofs.Extension
import Microstep.TypeTable.Lineage
import Microstep.Proofs.Acceptance
import Microstep.Program.Selection
import Microstep.Proofs.Dispatch
import Microstep.Proofs.Invocation
import Microstep.Evaluation.Reach
import Microstep.Proofs.Denotation
import Microstep.Proofs.Stepping
import Microstep.Proofs.Addressing
import Microstep.Program.Successor
import Microstep.Proofs.Successor
import Microstep.Program.Fields
import Microstep.Proofs.Fields
import Microstep.Proofs.Arithmetic
import Microstep.Proofs.Recording
import Microstep.Proofs.Legibility
import Microstep.Memory.Operation
import Microstep.Proofs.Store
