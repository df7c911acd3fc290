import Microstep.WorkList

/-!
# Itineraries

Where the cursor stands during a command: on each node of the operands once, from left to right and
children first, and then on the command itself; before and after the call, if the command is a call.

* `Command.operandNodes`: the nodes in the operands of a command;
* `Command.itinerary`: the cursors of a command, in order.
-/

namespace Microstep.Command

/-- The nodes that have to be evaluated in the operands of a command, constants not among them. The
call of a call command is not in an operand. -/
def operandNodes : Command → Nat
  | .entry | .ret none => 0
  | .assign (.field receiver _) value => receiver.nodes + value.nodes
  | .assign _ value => value.nodes
  | .cond condition _ _ => condition.nodes
  | .call receiver _ args => receiver.nodes + Expr.nodesOf args
  | .ret (some value) => value.nodes

/-- The paths of these nodes, in the order in which they come due. -/
def operandPaths : Command → List ExprPath
  | .entry | .ret none => []
  | .assign (.field receiver _) value => receiver.workList [0, 0] ++ value.workList [1]
  | .assign _ value => value.workList [1]
  | .cond condition _ _ => condition.workList [0]
  | .call receiver _ args => receiver.workList [0] ++ Expr.workListOf [] 1 args
  | .ret (some value) => value.workList [0]

/-- How often a command itself calls. -/
def calls : Command → Nat
  | .call .. => 1
  | .entry | .assign .. | .cond .. | .ret _ => 0

/-- The cursors of a command: the nodes of its operands, and the command itself, once more if it
calls. -/
def itinerary (c : Command) : List ExprPath :=
  c.operandPaths ++ List.replicate (c.calls + 1) []

theorem length_operandPaths (c : Command) : c.operandPaths.length = c.operandNodes := by
  cases c with
  | assign target value => cases target <;> simp [operandPaths, operandNodes, Expr.length_workList]
  | ret value => cases value <;> simp [operandPaths, operandNodes, Expr.length_workList]
  | _ => simp [operandPaths, operandNodes, Expr.length_workList, Expr.length_workListOf]

/-- The work list has the call of a call command in addition. -/
theorem workList_eq (c : Command) : c.workList = c.operandPaths ++ List.replicate c.calls [] := by
  cases c with
  | assign target value =>
    cases target <;> simp [workList, operands, operandPaths, calls, Expr.targetOperands]
  | ret value => cases value <;> simp [workList, operands, operandPaths, calls]
  | _ => simp [workList, operands, operandPaths, calls, Expr.workList]

/-- A command comes last, after its work list. -/
theorem itinerary_eq (c : Command) : c.itinerary = c.workList ++ [[]] := by
  rw [itinerary, workList_eq, List.replicate_succ', List.append_assoc]

theorem length_itinerary (c : Command) : c.itinerary.length = c.operandNodes + c.calls + 1 := by
  simp [itinerary, length_operandPaths, Nat.add_assoc]

theorem calls_le (c : Command) : c.calls ≤ 1 := by
  cases c <;> simp [calls]

end Microstep.Command
