import Std.Data.ExtTreeMap
import Microstep.Error

/-!
# Scopes

What the body of a method sees of its activation: its receiver and its variables. A variable exists
from its first assignment on; the parameters exist from the start.

* `Scope.read_bind`: a variable has the value that it was given last.
-/

namespace Microstep

/-- The receiver and the variables of an activation. -/
structure Scope where
  self : Address
  locals : Std.ExtTreeMap String Value
deriving DecidableEq

namespace Scope

/-- A scope without variables. -/
def empty (self : Address) : Scope := ⟨self, ∅⟩

/-- Gives a value to a variable, which need not exist before. -/
def bind (scope : Scope) (name : String) (v : Value) : Scope :=
  { scope with locals := scope.locals.insert name v }

/-- Binds parameters to arguments, pair by pair. Of two parameters of one name the later one
counts. -/
def bindAll (scope : Scope) (params : List Declaration) (args : List Value) : Scope :=
  (params.zip args).foldl (fun scope (param, v) => scope.bind param.name v) scope

/-- The value of a variable. -/
def read (scope : Scope) (name : String) : Except Error Value :=
  match scope.locals[name]? with
  | some v => .ok v
  | none => .error (.undefinedVariable name)

theorem read_bind (scope : Scope) (name other : String) (v : Value) :
    (scope.bind name v).read other = if name = other then .ok v else scope.read other := by
  by_cases h : name = other <;> simp [read, bind, Std.ExtTreeMap.getElem?_insert, h]

end Scope

end Microstep
