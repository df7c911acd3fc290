import Mathlib.Data.List.Induction
import Mathlib.Data.List.Nodup
import Mathlib.Data.List.Perm.Subperm
import Microstep.Proofs.Ancestry
import Microstep.Program.Place
import Microstep.TypeTable.Lineage

/-!
# Accepted tables

A table is a program exactly if its names are distinct and every type has a lineage. The check goes
up from each type with a budget, which is enough because a lineage names no type twice. In a program
the ancestry of a type is its lineage, so that a query fails for the type only if it is not defined.

* `TypeTable.duplicate?_eq_none_iff`, `TypeTable.FirstDuplicate.found`: the search for duplicates;
* `TypeTable.Lineage.nodup`, `TypeTable.climb_of_lineage`: lineages and the climb that finds them;
* `TypeTable.ancestryFault?_eq_none_iff`: the search for types without a lineage;
* `Program.ofTypes_iff_lineages`: which tables are accepted, and the ancestries of a program.
-/

namespace Microstep

/-- What stands in a list in which no key is repeated is found by its key. -/
theorem find?_of_nodup {α : Type} {key : α → String} {xs : List α} {x : α}
    (nodup : (xs.map key).Nodup) (hx : x ∈ xs) : xs.find? (key · = key x) = some x := by
  obtain ⟨y, hy⟩ : ∃ y, xs.find? (key · = key x) = some y := by
    rw [← Option.isSome_iff_exists, List.find?_isSome]
    exact ⟨x, hx, by simp⟩
  have same : key y = key x := by simpa using List.find?_some hy
  rw [hy, List.inj_on_of_nodup_map nodup (List.mem_of_find?_eq_some hy) hx same]

/-! ## Duplicates -/

variable {before after : List String} {name : String}

/-- The first name that stands in a list again. -/
theorem exists_repetition {names : List String} (h : ¬ names.Nodup) :
    ∃ before name after, names = before ++ name :: after ∧ before.Nodup ∧ name ∈ before := by
  induction names using List.reverseRec with
  | nil => exact absurd List.nodup_nil h
  | append_singleton names name ih =>
    by_cases nodup : names.Nodup
    · refine ⟨names, name, [], rfl, nodup, ?_⟩
      by_contra fresh
      refine h ?_
      rw [← List.concat_eq_append]
      exact List.Nodup.concat fresh nodup
    · obtain ⟨before, first, after, rfl, distinct, again⟩ := ih nodup
      exact ⟨before, first, after ++ [name], by simp, distinct, again⟩

/-- Names that are neither in the list before nor repeated among themselves are passed over. -/
theorem repeated?_append {seen : List String} (nodup : before.Nodup)
    (fresh : ∀ name ∈ before, name ∉ seen) :
    repeated? seen (before ++ after) = repeated? (before.reverse ++ seen) after := by
  induction before generalizing seen with
  | nil => rfl
  | cons name before ih =>
    obtain ⟨unseen, fresh⟩ := List.forall_mem_cons.mp fresh
    obtain ⟨single, nodup⟩ := List.nodup_cons.mp nodup
    rw [List.cons_append, repeated?, if_neg unseen, ih nodup]
    · simp
    · intro other hother
      rw [List.mem_cons, not_or]
      exact ⟨fun same => single (same ▸ hother), fresh other hother⟩

theorem repeated?_eq_some (nodup : before.Nodup) (again : name ∈ before) :
    repeated? [] (before ++ name :: after) = some name := by
  rw [repeated?_append nodup fun _ _ => List.not_mem_nil, repeated?, if_pos (by simpa using again)]

theorem repeated?_eq_none_iff {names : List String} : repeated? [] names = none ↔ names.Nodup := by
  constructor
  · intro h
    by_contra repeats
    obtain ⟨before, name, after, rfl, nodup, again⟩ := exists_repetition repeats
    rw [repeated?_eq_some nodup again] at h
    cases h
  · intro nodup
    have h : repeated? [] (names ++ []) = none :=
      repeated?_append nodup fun _ _ => List.not_mem_nil
    rwa [List.append_nil] at h

namespace TypeTable

variable {table before after : TypeTable} {t u : TypeDef} {types : List TypeDef} {name : String}
  {e : Error}

theorem distinct_append (distinct : Distinct before) (fresh : t.name ∉ before.map (·.name))
    (methods : (t.methods.map (·.name)).Nodup) : Distinct (before ++ [t]) where
  types := by
    rw [List.map_append, List.map_singleton, ← List.concat_eq_append]
    exact List.Nodup.concat fresh distinct.types
  methods u hu := by
    obtain hu | hu := List.mem_append.mp hu
    · exact distinct.methods u hu
    · rw [List.mem_singleton.mp hu]
      exact methods

theorem FirstDuplicate.append (h : FirstDuplicate before e) (after : TypeTable) :
    FirstDuplicate (before ++ after) e := by
  cases h with
  | type split distinct repeated =>
    exact .type (by rw [split, List.append_assoc, List.cons_append]) distinct repeated
  | method split distinct fresh methods nodup repeated =>
    exact .method (by rw [split, List.append_assoc, List.cons_append]) distinct fresh methods nodup
      repeated

/-- Where names are not distinct, there is a first definition that is at fault. -/
theorem exists_firstDuplicate (h : ¬ table.Distinct) : ∃ e, table.FirstDuplicate e := by
  induction table using List.reverseRec with
  | nil => exact absurd ⟨List.nodup_nil, fun t ht => absurd ht List.not_mem_nil⟩ h
  | append_singleton before t ih =>
    by_cases distinct : Distinct before
    · by_cases repeated : t.name ∈ before.map (·.name)
      · exact ⟨_, .type rfl distinct repeated⟩
      · have methods : ¬ (t.methods.map (·.name)).Nodup := fun methods =>
          h (distinct_append distinct repeated methods)
        obtain ⟨earlier, method, later, split, nodup, again⟩ := exists_repetition methods
        exact ⟨_, .method rfl distinct repeated split nodup again⟩
    · obtain ⟨e, first⟩ := ih distinct
      exact ⟨e, first.append [t]⟩

/-- Definitions whose names are new and distinct are passed over. -/
theorem duplicate?_append {seen : List String} (distinct : Distinct before)
    (fresh : ∀ t ∈ before, t.name ∉ seen) :
    duplicate? seen (before ++ after) =
      duplicate? ((before.map (·.name)).reverse ++ seen) after := by
  induction before generalizing seen with
  | nil => rfl
  | cons t before ih =>
    obtain ⟨unseen, fresh⟩ := List.forall_mem_cons.mp fresh
    obtain ⟨methods, rest⟩ := List.forall_mem_cons.mp distinct.methods
    obtain ⟨single, types⟩ := List.nodup_cons.mp distinct.types
    rw [List.cons_append, duplicate?, if_neg unseen, repeated?_eq_none_iff.mpr methods]
    simp only
    rw [ih ⟨types, rest⟩]
    · simp
    · intro u hu
      rw [List.mem_cons, not_or]
      exact ⟨fun same => single (List.mem_map.mpr ⟨u, hu, same⟩), fresh u hu⟩

/-- The search for duplicates stops at the first. -/
theorem FirstDuplicate.found (h : table.FirstDuplicate e) : duplicate? [] table = some e := by
  cases h with
  | type split distinct repeated =>
    rw [split, duplicate?_append distinct fun _ _ => List.not_mem_nil, duplicate?,
      if_pos (by simpa using repeated)]
  | method split distinct fresh methods nodup repeated =>
    rw [split, duplicate?_append distinct fun _ _ => List.not_mem_nil, duplicate?,
      if_neg (by simpa using fresh), methods, repeated?_eq_some nodup repeated]

theorem duplicate?_eq_none_iff : duplicate? [] table = none ↔ table.Distinct := by
  constructor
  · intro h
    by_contra repeats
    obtain ⟨e, first⟩ := exists_firstDuplicate repeats
    rw [first.found] at h
    cases h
  · intro distinct
    have h : duplicate? [] (table ++ []) = none :=
      duplicate?_append distinct fun _ _ => List.not_mem_nil
    rwa [List.append_nil] at h

/-! ## Lineages -/

/-- Where no name is repeated, a definition is found by its name. -/
theorem type?_of_mem (types : (table.map (·.name)).Nodup) (ht : t ∈ table) :
    table.type? t.name = some t :=
  find?_of_nodup types ht

theorem eq_of_name (types : (table.map (·.name)).Nodup) (ht : t ∈ table) (hu : u ∈ table)
    (same : t.name = u.name) : t = u :=
  List.inj_on_of_nodup_map types ht hu same

namespace Lineage

theorem mem_table (h : table.Lineage t types) (hu : u ∈ types) : u ∈ table := by
  induction h with
  | root defined parent => rwa [List.mem_singleton.mp hu]
  | child defined parent above ih =>
    obtain rfl | hu := List.mem_cons.mp hu
    · exact defined
    · exact ih hu

theorem defined (h : table.Lineage t types) : t ∈ table := by
  cases h <;> assumption

/-- A type has one lineage. -/
theorem unique (names : (table.map (·.name)).Nodup) {types' : List TypeDef}
    (h : table.Lineage t types) (h' : table.Lineage t types') : types' = types := by
  induction h generalizing types' with
  | root defined parent =>
    cases h' with
    | root => rfl
    | child _ parent' => rw [parent] at parent'; cases parent'
  | child defined parent above ih =>
    cases h' with
    | root _ parent' => rw [parent] at parent'; cases parent'
    | child _ parent' above' =>
      have same := eq_of_name names above.defined above'.defined
        (Option.some.inj (parent.symm.trans parent'))
      subst same
      rw [ih above']

theorem head_eq (h : table.Lineage t types) : ∃ above, types = t :: above := by
  cases h <;> exact ⟨_, rfl⟩

/-- From each of its types on, a lineage is the one of that type. -/
theorem suffix {nearer farther : List TypeDef} (h : table.Lineage t (nearer ++ u :: farther)) :
    table.Lineage u (u :: farther) := by
  induction nearer generalizing t with
  | nil =>
    obtain ⟨above, split⟩ := h.head_eq
    cases split
    exact h
  | cons first nearer ih =>
    rw [List.cons_append] at h
    generalize split : nearer ++ u :: farther = rest at h
    cases h with
    | root => simp at split
    | child _ _ above => exact ih (split ▸ above)

/-- No type is its own ancestor. -/
theorem nodup (names : (table.map (·.name)).Nodup) (h : table.Lineage t types) :
    (types.map (·.name)).Nodup := by
  induction h with
  | root => simp
  | @child t v types defined parent above ih =>
    refine List.nodup_cons.mpr ⟨fun again => ?_, ih⟩
    obtain ⟨u, hu, same⟩ := List.mem_map.mp again
    obtain rfl := eq_of_name names (above.mem_table hu) defined same
    obtain ⟨nearer, farther, rfl⟩ := List.append_of_mem hu
    -- The lineage of the type would be a proper part of itself.
    have longer := congrArg List.length (above.suffix.unique names (.child defined parent above))
    simp at longer
    omega

/-- A lineage is no longer than the table. -/
theorem length_le (names : (table.map (·.name)).Nodup) (h : table.Lineage t types) :
    types.length ≤ table.length := by
  have distinct : types.Nodup := List.Nodup.of_map _ (h.nodup names)
  exact (List.Nodup.subperm distinct fun _ => h.mem_table).length_le

end Lineage

/-- A climb that comes to an end has gone along a lineage. -/
theorem lineage_of_climb {start : String} {budget : Nat}
    (h : table.climb start budget name = .ok types) :
    ∃ t, table.type? name = some t ∧ table.Lineage t types := by
  induction budget generalizing name types with
  | zero => cases h
  | succ budget ih =>
    rw [climb] at h
    split at h
    · cases h
    · rename_i t ht
      have defined := List.mem_of_find?_eq_some ht
      refine ⟨t, ht, ?_⟩
      split at h
      · rename_i parent
        cases h
        exact .root defined parent
      · rename_i above parent
        obtain ⟨types, climbed, h⟩ := bind_eq_ok_iff.mp h
        cases h
        obtain ⟨u, hu, lineage⟩ := ih climbed
        exact .child defined (by rw [parent, name_of_type? hu]) lineage

/-- A climb comes to the end of every lineage that is within its budget. -/
theorem climb_of_lineage (names : (table.map (·.name)).Nodup) (h : table.Lineage t types)
    (start : String) {budget : Nat} (enough : types.length ≤ budget) :
    table.climb start budget t.name = .ok types := by
  induction h generalizing budget with
  | root defined parent =>
    cases budget with
    | zero => simp at enough
    | succ budget => simp only [climb, type?_of_mem names defined, parent]
  | child defined parent above ih =>
    cases budget with
    | zero => simp at enough
    | succ budget =>
      have climbed := ih (Nat.le_of_succ_le_succ enough)
      simp only [climb, type?_of_mem names defined, parent, climbed, ok_bind, pure_eq_ok]

theorem ancestry_of_lineage (names : (table.map (·.name)).Nodup) (h : table.Lineage t types) :
    table.ancestry t.name = .ok types :=
  climb_of_lineage names h t.name (Nat.le_succ_of_le (h.length_le names))

/-- The ancestry of a type is its lineage. -/
theorem ancestry_eq_ok_iff (names : (table.map (·.name)).Nodup) (ht : t ∈ table) :
    table.ancestry t.name = .ok types ↔ table.Lineage t types := by
  constructor
  · intro h
    obtain ⟨u, hu, lineage⟩ := lineage_of_climb h
    rw [type?_of_mem names ht] at hu
    cases hu
    exact lineage
  · exact ancestry_of_lineage names

theorem ancestryFault?_eq_none_iff (names : (table.map (·.name)).Nodup) :
    table.ancestryFault? = none ↔ ∀ t ∈ table, ∃ types, table.Lineage t types := by
  rw [ancestryFault?, List.findSome?_eq_none_iff]
  refine forall₂_congr fun t ht => ?_
  simp only [← ancestry_eq_ok_iff names ht]
  cases table.ancestry t.name <;> simp

/-- A table without a fault has distinct names, and a lineage for every type. -/
theorem fault?_eq_none_iff :
    table.fault? = none ↔ table.Distinct ∧ ∀ t ∈ table, ∃ types, table.Lineage t types := by
  rw [fault?]
  cases h : duplicate? [] table with
  | some e =>
    have repeats : ¬ table.Distinct := by simp [← duplicate?_eq_none_iff, h]
    simp [repeats]
  | none =>
    have distinct := duplicate?_eq_none_iff.mp h
    simp only [ancestryFault?_eq_none_iff distinct.types, distinct, true_and]

end TypeTable

/-! ## Programs -/

namespace Program

variable {p : Program} {table : TypeTable} {t : TypeDef} {e : Error} {cycle : String}

theorem distinct (p : Program) : p.table.Distinct :=
  (TypeTable.fault?_eq_none_iff.mp p.fault?_eq_none).1

theorem type?_of_mem_table (ht : t ∈ p.table) : p.table.type? t.name = some t :=
  TypeTable.type?_of_mem p.distinct.types ht

/-- Every type of a program has a lineage, which is its ancestry. -/
theorem exists_lineage (ht : t ∈ p.table) :
    ∃ types, p.table.Lineage t types ∧ p.ancestry t.name = .ok types := by
  obtain ⟨types, lineage⟩ := (TypeTable.fault?_eq_none_iff.mp p.fault?_eq_none).2 t ht
  exact ⟨types, lineage, TypeTable.ancestry_of_lineage p.distinct.types lineage⟩

theorem ofTypes_of_fault? (h : table.fault? = some e) : ofTypes table = .error e := by
  unfold ofTypes
  split
  · rename_i e' h'
    rw [h] at h'
    cases h'
    rfl
  · rename_i h'
    rw [h] at h'
    cases h'

theorem exists_ofTypes_iff : (∃ p, ofTypes table = .ok p) ↔ table.fault? = none := by
  constructor
  · rintro ⟨p, h⟩
    rw [← ofTypes_eq_ok h]
    exact p.fault?_eq_none
  · intro h
    exact ⟨⟨table, h⟩, ofTypes_table ⟨table, h⟩⟩

/-- A query of the program fails with the error. -/
inductive Refuses (p : Program) (e : Error) : Prop
  | typeDef {name : String} (h : p.typeDef name = .error e)
  | ancestry {type : String} (h : p.ancestry type = .error e)
  | fields {type : String} (h : p.fields type = .error e)
  | dispatch {type method : String} {arity : Nat} (h : p.dispatch type method arity = .error e)
  | entry {type method : String} {arity : Nat} (h : p.entry type method arity = .error e)
  | params {type method : String} {arity : Nat} (h : p.params type method arity = .error e)
  | commandAt {position : Position} (h : p.commandAt position = .error e)
  | next {position : Position} (h : p.next position = .error e)

theorem ancestry_ne_cycle (type : String) : p.ancestry type ≠ .error (.inheritanceCycle cycle) := by
  intro h
  obtain ⟨-, h⟩ := ancestry_eq_error h
  cases h

theorem dispatch_ne_cycle (type method : String) (arity : Nat) :
    p.dispatch type method arity ≠ .error (.inheritanceCycle cycle) := by
  intro h
  obtain h | ⟨types, -, h⟩ := bind_eq_error_iff.mp h
  · exact ancestry_ne_cycle type h
  · dsimp only at h
    split at h
    · cases h
    · split at h <;> cases h

/-- Only tables that are no programs have types that inherit from themselves. -/
theorem not_refuses_cycle : ¬ p.Refuses (.inheritanceCycle cycle) := by
  intro refuses
  cases refuses with
  | @typeDef name h =>
    rw [typeDef] at h
    cases known : p.table.type? name <;> simp [known] at h
  | ancestry h => exact ancestry_ne_cycle _ h
  | fields h =>
    obtain h | ⟨types, -, h⟩ := bind_eq_error_iff.mp h
    · exact ancestry_ne_cycle _ h
    · cases h
  | dispatch h => exact dispatch_ne_cycle _ _ _ h
  | entry h | params h =>
    obtain h | ⟨found, -, h⟩ := bind_eq_error_iff.mp h
    · exact dispatch_ne_cycle _ _ _ h
    · cases h
  | commandAt h =>
    unfold Program.commandAt at h
    split at h
    · cases h
    · split at h
      · cases h
      · split at h <;> cases h
  | next h =>
    unfold Program.next at h
    dsimp only at h
    split at h <;> cases h

/-- A table is accepted exactly if no name is repeated and every type has a lineage. If a name is
repeated, the error is that of the first definition which does so, whatever the lineages are. The
ancestry of a type is its lineage, in which no type is repeated; a name without ancestry is not
defined, and no query meets a type that inherits from itself. -/
theorem ofTypes_iff_lineages (table : TypeTable) :
    ((∃ p, ofTypes table = .ok p) ↔
      table.Distinct ∧ ∀ t ∈ table, ∃ types, table.Lineage t types) ∧
    (¬ table.Distinct → ∃ e, table.FirstDuplicate e) ∧
    (∀ e, table.FirstDuplicate e → ofTypes table = .error e) ∧
    ∀ p, ofTypes table = .ok p →
      (∀ t ∈ table, ∃ types, p.ancestry t.name = .ok types ∧ table.Lineage t types ∧
        (types.map (·.name)).Nodup) ∧
      (∀ name e, p.ancestry name = .error e →
        e = .unknownType name ∧ ∀ t ∈ table, t.name ≠ name) ∧
      ∀ type, ¬ p.Refuses (.inheritanceCycle type) := by
  refine ⟨?_, TypeTable.exists_firstDuplicate, fun e first => ?_, fun p accepted => ?_⟩
  · rw [exists_ofTypes_iff, TypeTable.fault?_eq_none_iff]
  · exact ofTypes_of_fault? (by rw [TypeTable.fault?, first.found])
  obtain rfl := ofTypes_eq_ok accepted
  refine ⟨fun t ht => ?_, fun name e failed => ?_, fun type => not_refuses_cycle⟩
  · obtain ⟨types, lineage, ancestry⟩ := exists_lineage ht
    exact ⟨types, ancestry, lineage, lineage.nodup p.distinct.types⟩
  · obtain ⟨unknown, rfl⟩ := ancestry_eq_error failed
    refine ⟨rfl, fun t ht same => ?_⟩
    rw [← same, type?_of_mem_table ht] at unknown
    cases unknown

/-- A gauge whose parent is missing is refused because there is another gauge. Without them the
meter inherits from the scale, which inherits from nothing. -/
theorem ofTypes_iff_lineages_meter :
    let scale : TypeDef := ⟨"Scale", none, [], []⟩
    let meter : TypeDef := ⟨"Meter", some "Scale", [], []⟩
    let gauge : TypeDef := ⟨"Gauge", some "Missing", [], []⟩
    ofTypes [meter, gauge, scale, gauge] = .error (.duplicateType "Gauge") ∧
      ∃ p, ofTypes [meter, scale] = .ok p ∧ p.ancestry "Meter" = .ok [meter, scale] := by
  intro scale meter gauge
  have twice : TypeTable.FirstDuplicate [meter, gauge, scale, gauge] (.duplicateType "Gauge") :=
    @TypeTable.FirstDuplicate.type _ [meter, gauge, scale] [] gauge rfl ⟨by decide, by decide⟩
      (by decide)
  have above : TypeTable.Lineage [meter, scale] scale [scale] := .root (by simp) rfl
  have lineage : TypeTable.Lineage [meter, scale] meter [meter, scale] :=
    .child (by simp) rfl above
  have distinct : TypeTable.Distinct [meter, scale] := ⟨by decide, by decide⟩
  obtain ⟨-, -, refused, -⟩ := ofTypes_iff_lineages [meter, gauge, scale, gauge]
  obtain ⟨accepted, -, -, queries⟩ := ofTypes_iff_lineages [meter, scale]
  obtain ⟨p, hp⟩ := accepted.mpr ⟨distinct, by
    simp only [List.forall_mem_cons]
    exact ⟨⟨_, lineage⟩, ⟨_, above⟩, by simp⟩⟩
  obtain ⟨types, ancestry, found, -⟩ := (queries p hp).1 meter List.mem_cons_self
  obtain rfl := lineage.unique distinct.types found
  exact ⟨refused _ twice, p, hp, ancestry⟩

end Program

end Microstep
