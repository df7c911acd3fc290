import Microstep.Operand
import Microstep.Program.Place
import Microstep.State

/-!
# Steps of expressions

What a step on an expression does: it descends into the leftmost operand that has no value, and
evaluates the node itself once all of them have one. The value is kept in the running activation,
except that a call pushes a new activation, whose return will deliver the value to the site of the
call.

* `State.reduce`: what a node does with the values of its operands;
* `State.step`: the step of an expression, which must not have been evaluated;
* `State.withOperand`: how commands use expressions.
-/

namespace Microstep

namespace State

/-- Starts the activation that a call at `path` of the current command asks for. The type of the
receiver's object selects the body, and the parameters are bound to the arguments. -/
def invoke (p : Program) (s : State) (path : ExprPath) (source : Expr) (receiver : Value)
    (method : String) (args : List Value) : Except Error State := do
  let a ← receiver.address source
  let type ← s.memory.heap.typeOf a
  let found ← p.dispatch type method args.length
  let scope := (Scope.empty a).bindAll found.method.params args
  return { s with
    memory := s.memory.push (.enter scope method (some (s.site path)) type)
    position := .entry found.owner.name method
    cursor := [] }

/-- Evaluates the node `e` at `path` of the current command, whose operands have the given
values. -/
def reduce (p : Program) (s : State) (path : ExprPath) (e : Expr) (values : List Value) :
    Except Error State :=
  match e, values with
  | .const _, _ => .error (.protocolViolation "constants are never stepped")
  | .var name, _ => do s.record path (← s.memory.read (.var name))
  | .self, _ => do s.record path (.ref (← s.memory.top).self)
  | .field _ name, receiver :: _ => do
    let a ← receiver.address e
    s.record path (← s.memory.read (.field a name))
  | .field .., [] => .error (.protocolViolation "field access without receiver value")
  | .apply op _, _ => do s.record path (← s.memory.heap.applyOperator e op values)
  | .call _ method _, receiver :: args => s.invoke p path e receiver method args
  | .call .., [] => .error (.protocolViolation "call invoked without a receiver value")
  | .new type, _ => do
    let (a, memory) := s.memory.allocate (← p.instantiate type)
    { s with memory }.record path (.ref a)

/-- Refuses an expression that has been evaluated. -/
def requireDue (s : State) (path : ExprPath) (e : Expr) : Except Error Unit := do
  if (← s.evaluate path e).isSome then
    .error (.protocolViolation s!"step requested for '{e.text}', which is already evaluated")

/-- What a step finds below a node: the values of its operands, or one that it stepped. -/
inductive Operands where
  | ready (values : List Value)
  | stepped (next : State)

mutual

/-- Evaluates the leftmost due node of the expression at `path` of the current command. -/
def step (p : Program) (s : State) (path : ExprPath) : Expr → Except Error State
  | .const v => do
    s.requireDue path (.const v)
    s.reduce p path (.const v) []
  | .var name => do
    s.requireDue path (.var name)
    s.reduce p path (.var name) []
  | .self => do
    s.requireDue path .self
    s.reduce p path .self []
  | .field receiver name => do
    s.requireDue path (.field receiver name)
    match ← s.evaluate (path ++ [0]) receiver with
    | some v => s.reduce p path (.field receiver name) [v]
    | none => step p s (path ++ [0]) receiver
  | .apply op operands => do
    s.requireDue path (.apply op operands)
    match ← stepIn p s path 0 operands with
    | .ready vs => s.reduce p path (.apply op operands) vs
    | .stepped next => return next
  | .call receiver method args => do
    s.requireDue path (.call receiver method args)
    match ← s.evaluate (path ++ [0]) receiver with
    | some v =>
      match ← stepIn p s path 1 args with
      | .ready vs => s.reduce p path (.call receiver method args) (v :: vs)
      | .stepped next => return next
    | none => step p s (path ++ [0]) receiver
  | .new type => do
    s.requireDue path (.new type)
    s.reduce p path (.new type) []

/-- Steps the leftmost operand without a value of the node at `path`, counted from `index`; or else
collects the values. -/
def stepIn (p : Program) (s : State) (path : ExprPath) (index : Nat) :
    List Expr → Except Error Operands
  | [] => .ok (.ready [])
  | e :: rest => do
    match ← s.evaluate (path ++ [index]) e with
    | some v =>
      match ← stepIn p s path (index + 1) rest with
      | .ready vs => return .ready (v :: vs)
      | .stepped next => return .stepped next
    | none => return .stepped (← step p s (path ++ [index]) e)

end

/-- Steps the leftmost operand without a value of a call at `path`; when all have one, calls, even
if a value is known for the call itself. -/
def stepCall (p : Program) (s : State) (path : ExprPath) (receiver : Expr) (method : String)
    (args : List Expr) : Except Error State := do
  match ← s.evaluate (path ++ [0]) receiver with
  | some v =>
    match ← s.stepIn p path 1 args with
    | .ready vs => s.invoke p path (.call receiver method args) v method vs
    | .stepped next => return next
  | none => s.step p (path ++ [0]) receiver

/-- Goes on with the value of the expression at `path` of the current command once it has been
evaluated; until then, steps it. -/
def withOperand (p : Program) (s : State) (path : ExprPath) (e : Expr)
    (k : Value → Except Error State) : Except Error State := do
  match ← s.evaluate path e with
  | some v => k v
  | none => s.step p path e

end State

end Microstep
