import Microstep.Value
import Microstep.Position

/-!
# Errors

Everything that can stop a program, a step or a player, by cause. `Error.category` tells faults of
the program from misuse of the machine and from exhausted limits; `Error.message` is the wording.
-/

namespace Microstep

/-- Who has to act on an error. -/
inductive ErrorCategory where
  /-- The program is wrong, or does something wrong. -/
  | malformedProgram
  /-- The machine was asked for something that is not its turn. -/
  | protocolMisuse
  /-- A limit on steps or on recorded states was reached. -/
  | resourceLimit
deriving DecidableEq, Repr

/-- Why a step, or the building of a program, cannot be done. -/
inductive Error where
  | malformedPosition (position : Position) (reason : String)
  | unknownType (name : String)
  | duplicateType (name : String)
  | duplicateMethod (type method : String)
  | inheritanceCycle (type : String)
  | missingMethod (type method : String) (arity : Nat)
  | argumentCountMismatch (type method : String) (expected got : Nat)
  | missingField (type field : String)
  | nullDereference (expression : String)
  | unknownAddress (address : Address)
  | undefinedVariable (name : String)
  | noStackFrame
  | typeError (expected got context : String)
  | integerOverflow (operation : String)
  | divisionByZero (operation : String)
  | invalidAssignmentTarget (target : String)
  | protocolViolation (message : String)
  | programFinished
  | snapshotLimitExceeded (current limit : Nat)
  | stepLimitExceeded (limit : Nat)
deriving DecidableEq, Repr

namespace Error

/-- Only the last four causes are not faults of the program. -/
def category : Error → ErrorCategory
  | .protocolViolation _ | .programFinished => .protocolMisuse
  | .snapshotLimitExceeded .. | .stepLimitExceeded _ => .resourceLimit
  | _ => .malformedProgram

/-- The wording of an error. -/
def message : Error → String
  | .malformedPosition position reason => s!"Malformed position {position.text}: {reason}"
  | .unknownType name => s!"Unknown type '{name}'"
  | .duplicateType name => s!"Type '{name}' is defined more than once"
  | .duplicateMethod type method => s!"Method '{method}' is defined more than once on type '{type}'"
  | .inheritanceCycle type => s!"Type '{type}' inherits from itself"
  | .missingMethod type method arity =>
    s!"Type '{type}' has no method '{method}' taking {arity} argument(s)"
  | .argumentCountMismatch type method expected got =>
    s!"Method '{type}.{method}' expects {expected} argument(s), got {got}"
  | .missingField type field => s!"Object of type '{type}' has no field '{field}'"
  | .nullDereference expression => s!"Null dereference in '{expression}'"
  | .unknownAddress address => s!"Address {address.text} is not allocated"
  | .undefinedVariable name => s!"Undefined variable '{name}'"
  | .noStackFrame => "No stack frame available"
  | .typeError expected got context => s!"Type error in '{context}': expected {expected}, got {got}"
  | .integerOverflow operation => s!"Integer overflow in {operation}"
  | .divisionByZero operation => s!"Division by zero in {operation}"
  | .invalidAssignmentTarget target => s!"'{target}' cannot be assigned to"
  | .protocolViolation message => s!"Simulator protocol violation: {message}"
  | .programFinished => "Program has already finished"
  | .snapshotLimitExceeded current limit =>
    s!"Snapshot memory limit exceeded: {current} bytes used, limit is {limit}"
  | .stepLimitExceeded limit => s!"Step limit of {limit} transitions exceeded"

end Error

end Microstep
