import Microstep.Command

/-!
# Work lists

The nodes that have to be evaluated, in the order in which they come due: operands before the node
that uses them, from left to right. Constants are not among them.

* `Expr.length_workList`: an expression has as many of them as `Expr.nodes` counts;
* `Command.workList`: those of all operands of a command.
-/

namespace Microstep

namespace Expr

mutual

/-- The paths of the nodes of the expression at `path`, children first. -/
def workList (path : ExprPath) : Expr → List ExprPath
  | .const _ => []
  | .var _ | .self | .new _ => [path]
  | .field receiver _ => receiver.workList (path ++ [0]) ++ [path]
  | .apply _ operands => workListOf path 0 operands ++ [path]
  | .call receiver _ args => receiver.workList (path ++ [0]) ++ workListOf path 1 args ++ [path]

/-- The paths of the nodes below the operands of the node at `path`, counted from `index`. -/
def workListOf (path : ExprPath) (index : Nat) : List Expr → List ExprPath
  | [] => []
  | e :: rest => e.workList (path ++ [index]) ++ workListOf path (index + 1) rest

end

mutual

theorem length_workList (path : ExprPath) (e : Expr) : (e.workList path).length = e.nodes := by
  cases e with
  | const _ | var _ | self | new _ => simp [workList, nodes]
  | field receiver name => simp [workList, nodes, length_workList (path ++ [0]) receiver]
  | apply op operands => simp [workList, nodes, length_workListOf path 0 operands]
  | call receiver method args =>
    simp [workList, nodes, length_workList (path ++ [0]) receiver, length_workListOf path 1 args,
      Nat.add_assoc]

theorem length_workListOf (path : ExprPath) (index : Nat) (es : List Expr) :
    (workListOf path index es).length = nodesOf es := by
  cases es with
  | nil => rfl
  | cons e rest =>
    simp [workListOf, nodesOf, length_workList (path ++ [index]) e,
      length_workListOf path (index + 1) rest]

end

end Expr

/-- The nodes that have to be evaluated before a command takes effect. The call of a call command is
one of them. -/
def Command.workList (c : Command) : List ExprPath :=
  c.operands.flatMap fun (path, e) => e.workList path

end Microstep
