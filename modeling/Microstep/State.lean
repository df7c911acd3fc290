import Microstep.Memory
import Microstep.Command

/-!
# States

The state of a run: the memory, the position of the current command, the node of it that is
evaluated next, and whether the run is over. A state is a value; the program it belongs to is not a
part of it.

What is suspended is in the memory. A half evaluated command is the top frame's record of node
values, and a waiting caller is the site that the frame above returns to.
-/

namespace Microstep

/-- Whether a run goes on. One that is over may have a result. -/
inductive Status where
  | running
  | finished (result : Option Value)
deriving DecidableEq, Repr

/-- The state between two steps. The cursor is empty when the command itself comes next. -/
structure State where
  memory : Memory
  position : Position
  cursor : ExprPath
  status : Status
deriving DecidableEq

namespace State

/-- Whether the activation that the run started with has returned. -/
def isFinished (s : State) : Bool :=
  match s.status with
  | .running => false
  | .finished _ => true

/-- What the activation that the run started with has returned, if anything. -/
def result? (s : State) : Option Value :=
  match s.status with
  | .running => none
  | .finished result => result

/-- The number of activations. -/
def depth (s : State) : Nat := s.memory.depth

/-- A node of the current command. -/
def site (s : State) (path : ExprPath) : Site := ⟨s.position, path⟩

/-- The value that the running activation keeps for a node of the current command. -/
def pending (s : State) (path : ExprPath) : Except Error (Option Value) :=
  s.memory.pending (s.site path)

/-- What is known of the nodes of the current command: nothing, if no activation is left. -/
def known (s : State) (path : ExprPath) : Option Value :=
  s.memory.stack.head?.bind (·.pending[s.site path]?)

/-- Keeps the value of a node of the current command. -/
def record (s : State) (path : ExprPath) (v : Value) : Except Error State := do
  return { s with memory := ← s.memory.record (s.site path) v }

/-- The value of the expression at `path` of the current command, if it has been evaluated. -/
def evaluate (s : State) (path : ExprPath) (e : Expr) : Except Error (Option Value) :=
  match e with
  | .const v => .ok (some v)
  | _ => s.pending path

mutual

/-- The path of the leftmost node of an expression that is evaluated next, if any is left. Below a
node that has been evaluated none is. -/
def firstDue (s : State) (path : ExprPath) : Expr → Except Error (Option ExprPath)
  | .const _ => .ok none
  | .var _ | .self | .new _ => do
    return if (← s.pending path).isSome then none else some path
  | .field receiver _ => do
    if (← s.pending path).isSome then
      return none
    else
      return some ((← firstDue s (path ++ [0]) receiver).getD path)
  | .apply _ operands => do
    if (← s.pending path).isSome then
      return none
    else
      return some ((← firstDueIn s path 0 operands).getD path)
  | .call receiver _ args => do
    if (← s.pending path).isSome then
      return none
    else
      match ← firstDue s (path ++ [0]) receiver with
      | some due => return some due
      | none => return some ((← firstDueIn s path 1 args).getD path)

/-- The same among the operands of the node at `path`, counted from `index`. -/
def firstDueIn (s : State) (path : ExprPath) (index : Nat) :
    List Expr → Except Error (Option ExprPath)
  | [] => .ok none
  | e :: rest => do
    match ← firstDue s (path ++ [index]) e with
    | some due => return some due
    | none => firstDueIn s path (index + 1) rest

end

/-- The same for several expressions, each given with its path. -/
def firstDueOf (s : State) : List (ExprPath × Expr) → Except Error (Option ExprPath)
  | [] => .ok none
  | (path, e) :: rest => do
    match ← s.firstDue path e with
    | some due => return some due
    | none => s.firstDueOf rest

/-- The node of a command that is evaluated next, or the empty path if the command itself comes
next. -/
def cursorOf (s : State) (c : Command) : Except Error ExprPath := do
  return (← s.firstDueOf c.operands).getD []

end State

end Microstep
