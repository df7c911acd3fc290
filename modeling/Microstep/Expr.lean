import Microstep.Operator

/-!
# Expressions

Expression trees. The children of a node are the operands that are evaluated before it, left to
right: the receiver of a field, the operands of an operator, the receiver of a call and then its
arguments.

* `Expr.children`, `Expr.text`: the operands and the source text of a node;
* `Expr.node?`: the node to which a path of child indices leads;
* `Expr.nodes`: how many nodes have to be evaluated one by one;
* `Expr.texts_eq_map`, `Expr.nodes_eq`: both functions in terms of the children.
-/

namespace Microstep

/-- Expressions. Everything but a constant takes a step to evaluate. -/
inductive Expr where
  | const (value : Value)
  | var (name : String)
  | self
  | field (receiver : Expr) (name : String)
  | apply (op : Operator) (operands : List Expr)
  | call (receiver : Expr) (method : String) (args : List Expr)
  | new (type : String)
deriving Repr, Inhabited

namespace Expr

/-- The direct operands, in the order of their evaluation. -/
def children : Expr → List Expr
  | .field receiver _ => [receiver]
  | .apply _ operands => operands
  | .call receiver _ args => receiver :: args
  | .const _ | .var _ | .self | .new _ => []

/-- The node below an expression to which child indices lead. -/
def node? (e : Expr) : ExprPath → Option Expr
  | [] => some e
  | i :: path =>
    match e.children[i]? with
    | some child => child.node? path
    | none => none

/-- A constant is its own value. -/
def isConst : Expr → Bool
  | .const _ => true
  | _ => false

mutual

/-- An expression as source text. -/
def text : Expr → String
  | .const value => value.text
  | .var name => name
  | .self => "this"
  | .field receiver name => receiver.text ++ "." ++ name
  | .apply op operands => op.render (texts operands)
  | .call receiver method args =>
    receiver.text ++ "." ++ method ++ "(" ++ ", ".intercalate (texts args) ++ ")"
  | .new type => "new " ++ type ++ "()"

/-- The texts of several expressions. -/
def texts : List Expr → List String
  | [] => []
  | e :: rest => e.text :: texts rest

end

mutual

/-- The number of nodes other than constants: as many steps as an evaluation without calls takes. -/
def nodes : Expr → Nat
  | .const _ => 0
  | .var _ | .self | .new _ => 1
  | .field receiver _ => receiver.nodes + 1
  | .apply _ operands => nodesOf operands + 1
  | .call receiver _ args => receiver.nodes + nodesOf args + 1

/-- The nodes of several expressions together. -/
def nodesOf : List Expr → Nat
  | [] => 0
  | e :: rest => e.nodes + nodesOf rest

end

theorem texts_eq_map (es : List Expr) : texts es = es.map text := by
  induction es with
  | nil => rfl
  | cons e rest ih => simp [texts, ih]

/-- A node counts itself, unless it is a constant, and its children. -/
theorem nodes_eq (e : Expr) : e.nodes = nodesOf e.children + if e.isConst then 0 else 1 := by
  cases e <;> simp [nodes, nodesOf, children, isConst]

end Expr

end Microstep
