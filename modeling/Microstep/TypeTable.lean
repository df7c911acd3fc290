import Microstep.Command

/-!
# Type tables

The definitions of types as they are given: a list, in which names may clash and parents may be
missing or circular. `TypeTable.fault?` finds what is wrong with a table, if anything is.

* `TypeTable.ancestry`: a type followed by its parent, the parent's parent, and so on;
* `TypeTable.duplicate?`: the first definition that repeats a type, or a method within itself;
* `TypeTable.fault?`: a duplicate anywhere comes before a fault in an ancestry.
-/

namespace Microstep

/-- A method: its parameters and its body. Positions count the commands from 0. -/
structure MethodDef where
  name : String
  params : List Declaration
  commands : List Command
deriving Repr, Inhabited

namespace MethodDef

/-- A method whose body is opened by the entry marker. -/
def ofBody (name : String) (params : List Declaration) (body : List Command) : MethodDef :=
  ⟨name, params, .entry :: body⟩

/-- The number of arguments that a call has to pass. -/
def arity (m : MethodDef) : Nat := m.params.length

end MethodDef

/-- A type: what it inherits from, and the fields and methods it declares itself. -/
structure TypeDef where
  name : String
  parent : Option String
  fields : List Declaration
  methods : List MethodDef
deriving Repr, Inhabited

/-- The method that the type itself declares under a name. -/
def TypeDef.method? (t : TypeDef) (name : String) : Option MethodDef :=
  t.methods.find? (·.name = name)

/-- The first element that occurs in `seen` or earlier in the list. -/
def repeated? (seen : List String) : List String → Option String
  | [] => none
  | name :: rest => if name ∈ seen then some name else repeated? (name :: seen) rest

/-- Type definitions in the order in which they are given. -/
abbrev TypeTable := List TypeDef

namespace TypeTable

/-- The definition of a name. -/
def type? (table : TypeTable) (name : String) : Option TypeDef :=
  table.find? (·.name = name)

/-- The type `name` and those it inherits from, at most `budget` of them. One that needs more is
taken to inherit from itself, which is reported for `start`. -/
def climb (table : TypeTable) (start : String) : Nat → String → Except Error (List TypeDef)
  | 0, _ => .error (.inheritanceCycle start)
  | budget + 1, name =>
    match table.type? name with
    | none => .error (.unknownType name)
    | some t =>
      match t.parent with
      | none => .ok [t]
      | some parent => do return t :: (← table.climb start budget parent)

/-- A type followed by the types it inherits from, nearest first. As many types as the table defines
can follow one another without a repetition, and one look-up more finds a parent that is missing. -/
def ancestry (table : TypeTable) (name : String) : Except Error (List TypeDef) :=
  table.climb name (table.length + 1) name

/-- The first definition that has the name of an earlier one, listed in `seen`, or declares a method
twice. -/
def duplicate? (seen : List String) : TypeTable → Option Error
  | [] => none
  | t :: rest =>
    if t.name ∈ seen then
      some (.duplicateType t.name)
    else
      match repeated? [] (t.methods.map (·.name)) with
      | some method => some (.duplicateMethod t.name method)
      | none => duplicate? (t.name :: seen) rest

/-- The first definition whose ancestry is circular or leaves the table. -/
def ancestryFault? (table : TypeTable) : Option Error :=
  table.findSome? fun t =>
    match table.ancestry t.name with
    | .ok _ => none
    | .error e => some e

/-- What keeps the table from being a program. -/
def fault? (table : TypeTable) : Option Error :=
  match duplicate? [] table with
  | some e => some e
  | none => table.ancestryFault?

end TypeTable

end Microstep
