import Microstep.State.Target

/-!
# Execution

The transition function. A command evaluates its operands one node a step; when all have values it
takes effect, which moves the position. Leaving a command drops what the running activation knew of
its nodes.

* `State.execute`: one step of a command;
* `State.advance`: one step of a run, after which the cursor is placed anew;
* `State.start`, `State.iterate`: the first state of a run, and the one after some steps.
-/

namespace Microstep.State

/-- Moves on to another command. -/
def moveTo (s : State) (position : Position) : Except Error State := do
  return { s with memory := ← s.memory.clear s.position, position, cursor := [] }

/-- Moves on to the command that follows the current one. -/
def leave (p : Program) (s : State) : Except Error State := do
  s.moveTo (← p.next s.position)

/-- Moves on to the first command of a branch, or past the current command if the branch is
empty. -/
def enter (p : Program) (s : State) (block : Nat) (branch : List Command) : Except Error State :=
  if branch.isEmpty then s.leave p else s.moveTo (s.position.descend block)

/-- Goes on as the value of a condition tells. -/
def choose (p : Program) (s : State) (condition : Expr) (thenBranch : List Command)
    (elseBranch : Option (List Command)) (v : Value) : Except Error State :=
  match v.bool?, elseBranch with
  | none, _ => .error (.typeError "bool" v.kind condition.text)
  | some true, _ => s.enter p 0 thenBranch
  | some false, some elseBranch => s.enter p 1 elseBranch
  | some false, none => s.leave p

/-- Ends the running activation. Its caller goes on with the value, or with null if there is none;
the run is over if the activation was started by no other. -/
def returnWith (s : State) (value : Option Value) : Except Error State := do
  let (frame, memory) ← s.memory.pop
  match frame.caller with
  | none => return { s with memory, cursor := [], status := .finished value }
  | some site =>
    return { s with
      memory := ← memory.record site (value.getD .null)
      position := site.position
      cursor := [] }

/-- One step of a command. Every command but the entry marker, which moves on at once, evaluates its
operands first. -/
def execute (p : Program) (s : State) : Command → Except Error State
  | .entry => s.moveTo s.position.afterEntry
  | .assign target value => do
    if ← s.targetReady [0] target then
      s.withOperand p [1] value fun v => do
        leave p { s with memory := ← s.writeTarget [0] target v }
    else
      s.stepTarget p [0] target
  | .cond condition thenBranch elseBranch =>
    s.withOperand p [0] condition (s.choose p condition thenBranch elseBranch)
  | .call receiver method args => do
    if (← s.pending []).isSome then s.leave p else s.stepCall p [] receiver method args
  | .ret none => s.returnWith none
  | .ret (some value) => s.withOperand p [0] value fun v => s.returnWith (some v)

/-- The current command. There is none when the run is over or the body has ended. -/
def command? (p : Program) (s : State) : Except Error (Option Command) :=
  match s.status with
  | .running => p.commandAt s.position
  | .finished _ => .ok none

/-- Places the cursor on the node that is evaluated next. -/
def refresh (p : Program) (s : State) : Except Error State := do
  match ← s.command? p with
  | some c => return { s with cursor := ← s.cursorOf c }
  | none => return { s with cursor := [] }

/-- The step of the current command. The end of a body is a return without a value. -/
def transition (p : Program) (s : State) : Except Error State := do
  match ← p.commandAt s.position with
  | some c => s.execute p c
  | none => s.returnWith none

/-- One step of a run. -/
def advance (p : Program) (s : State) : Except Error State :=
  match s.status with
  | .finished _ => .error .programFinished
  | .running => do (← s.transition p).refresh p

/-- The state after `n` steps. -/
def iterate (p : Program) : Nat → State → Except Error State
  | 0, s => .ok s
  | n + 1, s => do iterate p n (← s.advance p)

/-- The first state of a run: one object of the entry type, whose method without parameters is about
to run. -/
def start (p : Program) (type method : String) : Except Error State := do
  let (a, memory) := Memory.empty.allocate (← p.instantiate type)
  return {
    memory := memory.push (.enter (.empty a) method none type)
    position := ← p.entry type method 0
    cursor := []
    status := .running }

end Microstep.State
