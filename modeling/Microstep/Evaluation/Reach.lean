import Microstep.Evaluation

/-!
# Nodes within an evaluation

The evaluation of an expression comes to its nodes one by one, each with the heap that the nodes
before it have left.

* `Expr.callFree`: an expression that can be evaluated within one activation;
* `Expr.Reaches`: the nodes to which an evaluation comes;
* `Expr.FailsAt`: the node at which it ends without a value.
-/

namespace Microstep.Expr

mutual

/-- No node is a call. -/
def callFree : Expr → Bool
  | .const _ | .var _ | .self | .new _ => true
  | .field receiver _ => receiver.callFree
  | .apply _ operands => callFreeAll operands
  | .call .. => false

/-- No node of several expressions is a call. -/
def callFreeAll : List Expr → Bool
  | [] => true
  | e :: rest => e.callFree && callFreeAll rest

end

/-- The evaluation of an expression from the heap `h` comes to the node `n` at the path `q` below
the expression, and goes on there with the heap `h'`. It comes to a child when the children before
it have been evaluated. -/
inductive Reaches (p : Program) (call : CallRule) (scope : Scope) :
    Expr → Heap → ExprPath → Expr → Heap → Prop
  | here {e : Expr} {h : Heap} : Reaches p call scope e h [] e h
  | child {e c n : Expr} {h h₁ h' : Heap} {i : Nat} {q : ExprPath} {vs : List Value}
      (child : e.children[i]? = some c)
      (before : evalAll p call scope h (e.children.take i) = .done (vs, h₁))
      (inside : Reaches p call scope c h₁ q n h') : Reaches p call scope e h (i :: q) n h'

/-- The node at the path `q` fails with an error although its operands have values. -/
def FailsAt (p : Program) (call : CallRule) (scope : Scope) (e : Expr) (h : Heap) (q : ExprPath)
    (error : Error) : Prop :=
  ∃ n h₁ vs h₂, e.Reaches p call scope h q n h₁ ∧
    evalAll p call scope h₁ n.children = .done (vs, h₂) ∧
    n.eval p call scope h₁ = .failed error

end Microstep.Expr
