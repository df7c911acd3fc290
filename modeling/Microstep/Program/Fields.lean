import Microstep.Memory.Heap
import Microstep.Program

/-!
# Inherited fields

Which fields an object has, said of the declarations in the types that it is of and not of how they
are put together.

* `TypeDef.DeclaresField`: a type declares a field;
* `Prevails`: the declaration of a field that counts among types, nearest first;
* `Object.FieldsFrom`, `Object.DefaultsFrom`: an object and a new object of these types.
-/

namespace Microstep

/-- The type itself declares a field of that name, once or more often. -/
def TypeDef.DeclaresField (t : TypeDef) (name : String) : Prop :=
  ∃ d ∈ t.fields, d.name = name

/-- The declaration is the last one of that name in the nearest type that declares the field. -/
inductive Prevails (types : List TypeDef) (name : String) : Declaration → Prop
  | last {nearer farther : List TypeDef} {t : TypeDef} {before after : List Declaration}
      {d : Declaration} (split : types = nearer ++ t :: farther)
      (nearest : ∀ u ∈ nearer, ¬ u.DeclaresField name) (declares : t.fields = before ++ d :: after)
      (named : d.name = name) (last : ∀ later ∈ after, later.name ≠ name) : Prevails types name d

namespace Object

/-- The object has the fields that the types declare, and no others. -/
def FieldsFrom (types : List TypeDef) (o : Object) : Prop :=
  ∀ name, name ∈ o.fields ↔ ∃ t ∈ types, t.DeclaresField name

/-- Each field holds the default of the type in the declaration that counts. -/
def DefaultsFrom (types : List TypeDef) (o : Object) : Prop :=
  ∀ name v, o.fields[name]? = some v ↔ ∃ d, Prevails types name d ∧ d.type.default = v

end Object

end Microstep
