import Microstep.State.Step

/-!
# Targets of assignments

What can stand to the left of an assignment: a variable, or a field of an expression. Only the
receiver of a field has to be evaluated before the write; nothing else can be assigned to.
-/

namespace Microstep.State

/-- Whether the target at `path` can be written to without another step. -/
def targetReady (s : State) (path : ExprPath) : Expr → Except Error Bool
  | .var _ => .ok true
  | .field receiver _ => do return (← s.evaluate (path ++ [0]) receiver).isSome
  | other => .error (.invalidAssignmentTarget other.text)

/-- Evaluates the leftmost due node of the receiver of the target at `path`. -/
def stepTarget (p : Program) (s : State) (path : ExprPath) : Expr → Except Error State
  | .field receiver _ => s.step p (path ++ [0]) receiver
  | .var name => .error (.protocolViolation s!"variable target '{name}' needs no stepping")
  | other => .error (.invalidAssignmentTarget other.text)

/-- The location that the target at `path` stands for once its receiver has been evaluated. -/
def location (s : State) (path : ExprPath) (target : Expr) : Except Error Location :=
  match target with
  | .var name => .ok (.var name)
  | .field receiver name => do
    match ← s.evaluate (path ++ [0]) receiver with
    | some v => return .field (← v.address target) name
    | none =>
      .error (.protocolViolation s!"write to '{target.text}' before its receiver is ready")
  | other => .error (.invalidAssignmentTarget other.text)

/-- The memory after a write to the target at `path`. -/
def writeTarget (s : State) (path : ExprPath) (target : Expr) (v : Value) :
    Except Error Memory := do
  s.memory.write (← s.location path target) v

end Microstep.State
