import Microstep.Command

/-!
# Redexes

Which node of an expression comes next, read off what is known of its nodes. The nodes that have
been evaluated are known by their paths; a node is due when it is not known itself and all its
operands have values. The search goes from left to right and does not look below a node that is
known.

* `Expr.readiness`: the value of an expression, or its leftmost node that is due;
* `Expr.readinessOf`: the same for several operands, which are ready together or not at all;
* `Command.readiness`: the same for everything that a command evaluates.
-/

namespace Microstep

/-- A due node: where it stands, what it says, and the values of its operands. -/
structure Redex where
  path : ExprPath
  source : Expr
  values : List Value
deriving Repr

/-- Either a result, or the node that has to be evaluated first. -/
inductive Readiness (α : Type) where
  | ready (value : α)
  | due (redex : Redex)
deriving Repr

namespace Readiness

/-- Goes on with a result; a node that is due stays due. -/
def bind {α β : Type} (r : Readiness α) (f : α → Readiness β) : Readiness β :=
  match r with
  | .ready value => f value
  | .due redex => .due redex

instance : Monad Readiness where
  pure := .ready
  bind := bind

@[simp]
theorem ready_bind {α β : Type} (value : α) (f : α → Readiness β) :
    (Readiness.ready value >>= f) = f value := rfl

@[simp]
theorem due_bind {α β : Type} (redex : Redex) (f : α → Readiness β) :
    (Readiness.due redex >>= f) = .due redex := rfl

@[simp]
theorem pure_eq {α : Type} (value : α) : (pure value : Readiness α) = .ready value := rfl

end Readiness

namespace Expr

/-- The value that is known for the node `e` at `path`. A node of which nothing is known is due once
its operands have values. -/
def unlessKnown (known : Option Value) (path : ExprPath) (e : Expr)
    (operands : Readiness (List Value)) : Readiness Value :=
  match known with
  | some v => .ready v
  | none => do .due ⟨path, e, ← operands⟩

mutual

/-- The value of the expression at `path`, or its leftmost due node. A constant needs no evaluation,
every other node has the value that is known for its path. -/
def readiness (known : ExprPath → Option Value) (path : ExprPath) : Expr → Readiness Value
  | .const v => .ready v
  | .var name => unlessKnown (known path) path (.var name) (.ready [])
  | .self => unlessKnown (known path) path .self (.ready [])
  | .field receiver name => unlessKnown (known path) path (.field receiver name) do
    return [← receiver.readiness known (path ++ [0])]
  | .apply op operands =>
    unlessKnown (known path) path (.apply op operands) (readinessOf known path 0 operands)
  | .call receiver method args => unlessKnown (known path) path (.call receiver method args) do
    return (← receiver.readiness known (path ++ [0])) :: (← readinessOf known path 1 args)
  | .new type => unlessKnown (known path) path (.new type) (.ready [])

/-- The values of the operands of the node at `path`, counted from `index`, or the leftmost due node
among them. -/
def readinessOf (known : ExprPath → Option Value) (path : ExprPath) (index : Nat) :
    List Expr → Readiness (List Value)
  | [] => .ready []
  | e :: rest => do
    return (← e.readiness known (path ++ [index])) :: (← readinessOf known path (index + 1) rest)

end

/-- The values of several expressions, each given with its path, or the leftmost due node. -/
def readinessEach (known : ExprPath → Option Value) :
    List (ExprPath × Expr) → Readiness (List Value)
  | [] => .ready []
  | (path, e) :: rest => do
    return (← e.readiness known path) :: (← readinessEach known rest)

end Expr

/-- The values of the operands of a command, or the leftmost due node among them. -/
def Command.readiness (known : ExprPath → Option Value) (c : Command) : Readiness (List Value) :=
  Expr.readinessEach known c.operands

end Microstep
