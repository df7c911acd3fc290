import Microstep.TypeTable

/-!
# Lineages

What makes a table a program, said by the names in it: none is given twice, and going from a type
to its parent comes to an end at a type that has none. Nothing here looks a name up or counts steps.

* `TypeTable.Distinct`, `TypeTable.FirstDuplicate`: names that differ, and the first that does not;
* `TypeTable.Lineage`: the types from one to its last ancestor.
-/

namespace Microstep.TypeTable

/-- No two types have the same name, and no type declares two methods of the same name. -/
structure Distinct (table : TypeTable) : Prop where
  types : (table.map (·.name)).Nodup
  methods : ∀ t ∈ table, (t.methods.map (·.name)).Nodup

/-- The error names the first definition that has the name of an earlier one or else, with the first
such name, declares two methods of the same name. -/
inductive FirstDuplicate (table : TypeTable) : Error → Prop
  | type {before after : TypeTable} {t : TypeDef} (split : table = before ++ t :: after)
      (distinct : Distinct before) (repeated : t.name ∈ before.map (·.name)) :
      FirstDuplicate table (.duplicateType t.name)
  | method {before after : TypeTable} {t : TypeDef} {earlier later : List String} {method : String}
      (split : table = before ++ t :: after) (distinct : Distinct before)
      (fresh : t.name ∉ before.map (·.name))
      (methods : t.methods.map (·.name) = earlier ++ method :: later) (nodup : earlier.Nodup)
      (repeated : method ∈ earlier) : FirstDuplicate table (.duplicateMethod t.name method)

/-- The types that lead from `t` to one without a parent. Each is defined, and is followed by the
one that has the name of its parent. -/
inductive Lineage (table : TypeTable) : TypeDef → List TypeDef → Prop
  | root {t : TypeDef} (defined : t ∈ table) (parent : t.parent = none) : Lineage table t [t]
  | child {t u : TypeDef} {types : List TypeDef} (defined : t ∈ table)
      (parent : t.parent = some u.name) (above : Lineage table u types) :
      Lineage table t (t :: types)

end Microstep.TypeTable
