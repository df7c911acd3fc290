import Microstep.Outcome
import Microstep.Memory.Scope
import Microstep.Operand

/-!
# Evaluation

What programs mean, without positions, node values or a stack: expressions are evaluated and
commands are run by recursion on themselves. Operands go from left to right and none is skipped, a
call runs the whole body, and what it yields is the value it returns, or null. Only the depth of
calls is limited by fuel.

* `Expr.eval`, `Command.run`: expressions and commands, given how calls are answered;
* `Program.answer`: how calls are answered with some fuel;
* `Program.eval`: a whole program, from the object that it starts with to its result.
-/

namespace Microstep

/-- How calls are answered: the call as errors quote it, the receiver, the method, the arguments and
the heap give the value of the call and the heap after it. -/
abbrev CallRule := Expr → Value → String → List Value → Heap → Outcome (Value × Heap)

mutual

/-- The value of an expression, and the heap after its evaluation. -/
def Expr.eval (p : Program) (call : CallRule) (scope : Scope) (h : Heap) :
    Expr → Outcome (Value × Heap)
  | .const v => .done (v, h)
  | .var name => do return (← scope.read name, h)
  | .self => .done (.ref scope.self, h)
  | .field receiver name => do
    let (v, h) ← receiver.eval p call scope h
    let a ← v.address (.field receiver name)
    return (← h.read a name, h)
  | .apply op operands => do
    let (vs, h) ← Expr.evalAll p call scope h operands
    return (← h.applyOperator (.apply op operands) op vs, h)
  | .call receiver method args => do
    let (v, h) ← receiver.eval p call scope h
    let (vs, h) ← Expr.evalAll p call scope h args
    call (.call receiver method args) v method vs h
  | .new type => do
    let (a, h) := h.allocate (← p.instantiate type)
    return (.ref a, h)

/-- The values of several expressions, evaluated one after the other. -/
def Expr.evalAll (p : Program) (call : CallRule) (scope : Scope) (h : Heap) :
    List Expr → Outcome (List Value × Heap)
  | [] => .done ([], h)
  | e :: rest => do
    let (v, h) ← e.eval p call scope h
    let (vs, h) ← Expr.evalAll p call scope h rest
    return (v :: vs, h)

end

/-- How a command ends: the body goes on, or it returns. -/
inductive Flow where
  | next
  | returned (value : Option Value)
deriving DecidableEq

mutual

/-- Runs a command. -/
def Command.run (p : Program) (call : CallRule) (scope : Scope) (h : Heap) :
    Command → Outcome (Flow × Scope × Heap)
  | .entry => .done (.next, scope, h)
  | .assign target value =>
    match target with
    | .var name => do
      let (v, h) ← value.eval p call scope h
      return (.next, scope.bind name v, h)
    | .field receiver name => do
      let (r, h) ← receiver.eval p call scope h
      let (v, h) ← value.eval p call scope h
      let a ← r.address target
      return (.next, scope, ← h.write a name v)
    | _ => .failed (.invalidAssignmentTarget target.text)
  | .cond condition thenBranch elseBranch => do
    let (v, h) ← condition.eval p call scope h
    match v.bool? with
    | some true => Command.runAll p call scope h thenBranch
    | some false => Command.runElse p call scope h elseBranch
    | none => .failed (.typeError "bool" v.kind condition.text)
  | .call receiver method args => do
    let (_, h) ← (Expr.call receiver method args).eval p call scope h
    return (.next, scope, h)
  | .ret none => .done (.returned none, scope, h)
  | .ret (some value) => do
    let (v, h) ← value.eval p call scope h
    return (.returned (some v), scope, h)

/-- Runs commands one after the other, up to the first that returns. -/
def Command.runAll (p : Program) (call : CallRule) (scope : Scope) (h : Heap) :
    List Command → Outcome (Flow × Scope × Heap)
  | [] => .done (.next, scope, h)
  | c :: rest => do
    let (flow, scope, h) ← c.run p call scope h
    match flow with
    | .next => Command.runAll p call scope h rest
    | .returned v => return (.returned v, scope, h)

/-- Runs the branch that a conditional takes when its condition fails. -/
def Command.runElse (p : Program) (call : CallRule) (scope : Scope) (h : Heap) :
    Option (List Command) → Outcome (Flow × Scope × Heap)
  | none => .done (.next, scope, h)
  | some branch => Command.runAll p call scope h branch

end

/-- Runs a body to its end or to a return; what it returns, and the heap after it. -/
def runBody (p : Program) (call : CallRule) (scope : Scope) (h : Heap) (body : List Command) :
    Outcome (Option Value × Heap) := do
  let (flow, _, h) ← Command.runAll p call scope h body
  match flow with
  | .next => return (none, h)
  | .returned v => return (v, h)

namespace Program

/-- Answers a call by running the body that the receiver's object selects. Each call inside it has
one unit of fuel less. -/
def answer (p : Program) : Nat → CallRule
  | 0 => fun _ _ _ _ _ => .unfinished
  | fuel + 1 => fun source receiver method args h => do
    let a ← receiver.address source
    let type ← h.typeOf a
    let found ← p.dispatch type method args.length
    let scope := (Scope.empty a).bindAll found.method.params args
    let (v, h) ← runBody p (p.answer fuel) scope h found.method.commands
    return (v.getD .null, h)

/-- The result of a program that starts with a method without parameters on a new object, and the
heap at its end. -/
def eval (p : Program) (fuel : Nat) (type method : String) : Outcome (Option Value × Heap) := do
  let (a, h) := Heap.empty.allocate (← p.instantiate type)
  let found ← p.dispatch type method 0
  runBody p (p.answer fuel) (.empty a) h found.method.commands

end Program

end Microstep
