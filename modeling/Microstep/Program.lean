import Microstep.TypeTable

/-!
# Programs

A `Program` is a type table without a fault. Its queries are about types as a whole, inherited
members included.

* `Program.fields`: the fields of an object, those of the farthest ancestor first;
* `Program.dispatch`: the method body that a call runs. The nearest type decides that declares the
  name with as many parameters as arguments are passed; a nearer method of another arity does not
  hide it.
-/

namespace Microstep

/-- A type table in which names are unique and every ancestry ends. -/
structure Program where
  table : TypeTable
  fault?_eq_none : table.fault? = none

/-- A method body as a call finds it: the method, and the type that declares it. -/
structure Implementation where
  owner : TypeDef
  method : MethodDef

namespace Program

/-- A program of the given types, or what is wrong with them. -/
def ofTypes (table : TypeTable) : Except Error Program :=
  match h : table.fault? with
  | some e => .error e
  | none => .ok ⟨table, h⟩

/-- The definition of a type. -/
def typeDef (p : Program) (name : String) : Except Error TypeDef :=
  match p.table.type? name with
  | some t => .ok t
  | none => .error (.unknownType name)

/-- A type followed by the types it inherits from, nearest first. -/
def ancestry (p : Program) (type : String) : Except Error (List TypeDef) :=
  p.table.ancestry type

/-- All fields of a type. A field declared again by a descendant comes later in the list. -/
def fields (p : Program) (type : String) : Except Error (List Declaration) := do
  let ancestors ← p.ancestry type
  return ancestors.reverse.flatMap (·.fields)

/-- The declarations of a method among the given types. -/
def implementations (types : List TypeDef) (method : String) : List Implementation :=
  types.filterMap fun t => (t.method? method).map (⟨t, ·⟩)

/-- The body that a call of `method` with `arity` arguments runs on an object of type `type`. If no
type has one, the nearest declaration of the name tells how many arguments it wants. -/
def dispatch (p : Program) (type method : String) (arity : Nat) : Except Error Implementation := do
  let declared := implementations (← p.ancestry type) method
  match declared.find? (·.method.arity = arity) with
  | some found => return found
  | none =>
    match declared with
    | nearest :: _ =>
      .error (.argumentCountMismatch nearest.owner.name method nearest.method.arity arity)
    | [] => .error (.missingMethod type method arity)

/-- The first position of the body that `dispatch` finds. -/
def entry (p : Program) (type method : String) (arity : Nat) : Except Error Position := do
  let found ← p.dispatch type method arity
  return .entry found.owner.name method

/-- The parameters of the body that `dispatch` finds. -/
def params (p : Program) (type method : String) (arity : Nat) :
    Except Error (List Declaration) := do
  let found ← p.dispatch type method arity
  return found.method.params

/-- The body that a type itself declares under a name. -/
def body? (p : Program) (type method : String) : Option (List Command) := do
  let t ← p.table.type? type
  let m ← t.method? method
  return m.commands

end Program

end Microstep
