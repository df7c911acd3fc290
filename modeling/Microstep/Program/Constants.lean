import Microstep.Program
import Microstep.Program.Occurrence

/-!
# Constants

The values that are written in a program, those in the branches of conditionals included.
-/

namespace Microstep

mutual

/-- The constants in an expression, from left to right. -/
def Expr.constants : Expr → List Value
  | .const v => [v]
  | .var _ | .self | .new _ => []
  | .field receiver _ => receiver.constants
  | .apply _ operands => Expr.constantsOf operands
  | .call receiver _ args => receiver.constants ++ Expr.constantsOf args

/-- The constants in several expressions. -/
def Expr.constantsOf : List Expr → List Value
  | [] => []
  | e :: rest => e.constants ++ Expr.constantsOf rest

end

/-- The constants in the expressions of a command, its branches left out. -/
def Command.constants : Command → List Value
  | .entry | .ret none => []
  | .assign target value => target.constants ++ value.constants
  | .cond condition _ _ => condition.constants
  | .call receiver method args => (Expr.call receiver method args).constants
  | .ret (some value) => value.constants

/-- The constants in the bodies of all methods. -/
def Program.constants (p : Program) : List Value :=
  (p.table.flatMap (·.methods)).flatMap fun m =>
    (Command.occurrences 0 0 m.commands).flatMap (·.command.constants)

end Microstep
