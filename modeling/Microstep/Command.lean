import Microstep.Expr

/-!
# Commands

The commands of method bodies. A conditional holds further commands in its branches: branch 0 is
taken when the condition holds, branch 1 otherwise (`Command.branch?`). The expressions of a command
have fixed paths (`Command.operands`): the target of an assignment is 0 and its value 1, the operand
of a conditional or of a return is 0, and a call command is one call node at the empty path. Child
indices lead on to the nodes below (`Command.node?`).
-/

namespace Microstep

/-- Commands. The entry marker opens a method body. -/
inductive Command where
  | entry
  | assign (target value : Expr)
  | cond (condition : Expr) (thenBranch : List Command) (elseBranch : Option (List Command))
  | call (receiver : Expr) (method : String) (args : List Expr)
  | ret (value : Option Expr)
deriving Repr, Inhabited

/-- What has to be evaluated in the target of an assignment that stands at `path`: of a field, its
receiver. -/
def Expr.targetOperands (target : Expr) (path : ExprPath) : List (ExprPath × Expr) :=
  match target with
  | .field receiver _ => [(path ++ [0], receiver)]
  | _ => []

namespace Command

/-- The word for what a command does. -/
def kind : Command → String
  | .entry => "method-entry"
  | .assign .. => "assignment"
  | .cond .. => "conditional"
  | .call .. => "call"
  | .ret _ => "return"

/-- A command as source text, its branches left out. -/
def text : Command → String
  | .entry => "<method entry>"
  | .assign target value => target.text ++ " = " ++ value.text
  | .cond condition _ none => "if (" ++ condition.text ++ ") \x7b … \x7d"
  | .cond condition _ (some _) => "if (" ++ condition.text ++ ") \x7b … \x7d else \x7b … \x7d"
  | .call receiver method args => (Expr.call receiver method args).text
  | .ret none => "return"
  | .ret (some value) => "return " ++ value.text

/-- The commands of a branch, if the command has that branch. -/
def branch? : Command → Nat → Option (List Command)
  | .cond _ thenBranch _, 0 => some thenBranch
  | .cond _ _ elseBranch, 1 => elseBranch
  | _, _ => none

/-- What has to be evaluated before the command takes effect, in this order, with paths. -/
def operands : Command → List (ExprPath × Expr)
  | .entry | .ret none => []
  | .assign target value => target.targetOperands [0] ++ [([1], value)]
  | .cond condition _ _ => [([0], condition)]
  | .call receiver method args => [([], .call receiver method args)]
  | .ret (some value) => [([0], value)]

/-- The node of a command to which a path leads. -/
def node? (c : Command) (path : ExprPath) : Option Expr :=
  match c, path with
  | .assign target _, 0 :: path => target.node? path
  | .assign _ value, 1 :: path => value.node? path
  | .cond condition _ _, 0 :: path => condition.node? path
  | .ret (some value), 0 :: path => value.node? path
  | .call receiver method args, path => (Expr.call receiver method args).node? path
  | _, _ => none

end Command

end Microstep
