import Microstep.Operand
import Microstep.Program
import Microstep.Proofs.Bind

/-!
# Types of a program

In a program every defined type has an ancestry, so that looking one up fails only for a name that
is not defined. What a dispatch finds is a method that its owner declares.
-/

namespace Microstep

namespace TypeTable

variable {table : TypeTable} {name : String} {t : TypeDef}

theorem name_of_type? (h : table.type? name = some t) : t.name = name := by
  simpa using List.find?_some h

theorem type?_of_mem_climb {start : String} {budget : Nat} {types : List TypeDef}
    (h : table.climb start budget name = .ok types) (ht : t ∈ types) :
    table.type? t.name = some t := by
  induction budget generalizing name types with
  | zero => cases h
  | succ budget ih =>
    rw [climb] at h
    split at h
    · cases h
    · rename_i u hu
      have hself : table.type? u.name = some u := by rw [name_of_type? hu, hu]
      split at h
      · cases h
        rw [List.mem_singleton.mp ht, hself]
      · obtain ⟨above, habove, h⟩ := bind_eq_ok_iff.mp h
        cases h
        obtain rfl | ht := List.mem_cons.mp ht
        · exact hself
        · exact ih habove ht

theorem ancestry_of_unknown (h : table.type? name = none) :
    table.ancestry name = .error (.unknownType name) := by
  rw [ancestry, climb, h]

end TypeTable

namespace Program

variable {p : Program} {type method : String} {arity : Nat} {found : Implementation}

theorem ofTypes_eq_ok {table : TypeTable} (h : ofTypes table = .ok p) : p.table = table := by
  unfold ofTypes at h
  split at h
  · cases h
  · cases h
    rfl

/-- The table of a program is accepted. -/
theorem ofTypes_table (p : Program) : ofTypes p.table = .ok p := by
  unfold ofTypes
  split
  · rename_i e h
    rw [p.fault?_eq_none] at h
    cases h
  · rfl

/-- The definition of a type that is known has an ancestry. -/
theorem ancestry_of_type? {t : TypeDef} (h : p.table.type? type = some t) :
    ∃ types, p.ancestry type = .ok types := by
  have hf := p.fault?_eq_none
  rw [TypeTable.fault?] at hf
  split at hf
  · cases hf
  · have ht := List.findSome?_eq_none_iff.mp hf t (List.mem_of_find?_eq_some h)
    rw [TypeTable.name_of_type? h] at ht
    rw [ancestry]
    cases ha : p.table.ancestry type with
    | ok types => exact ⟨types, rfl⟩
    | error e => simp [ha] at ht

theorem ancestry_eq_error {e : Error} (h : p.ancestry type = .error e) :
    p.table.type? type = none ∧ e = .unknownType type := by
  cases ht : p.table.type? type with
  | some t =>
    obtain ⟨types, ha⟩ := ancestry_of_type? ht
    rw [ha] at h
    cases h
  | none =>
    rw [ancestry, TypeTable.ancestry_of_unknown ht] at h
    cases h
    exact ⟨rfl, rfl⟩

theorem type?_of_ancestry {types : List TypeDef} (h : p.ancestry type = .ok types) :
    ∃ t, p.table.type? type = some t := by
  cases ht : p.table.type? type with
  | some t => exact ⟨t, rfl⟩
  | none =>
    rw [ancestry, TypeTable.ancestry_of_unknown ht] at h
    cases h

/-- A new object is of a type that the program defines. -/
theorem type?_of_instantiate {o : Object} (h : p.instantiate type = .ok o) :
    ∃ t, p.table.type? o.type = some t := by
  obtain ⟨declarations, hd, h⟩ := bind_eq_ok_iff.mp h
  obtain ⟨types, ha, -⟩ := bind_eq_ok_iff.mp hd
  cases h
  exact type?_of_ancestry ha

theorem instantiate_eq_error {e : Error} (h : p.instantiate type = .error e) :
    p.table.type? type = none ∧ e = .unknownType type := by
  obtain h | ⟨_, -, h⟩ := bind_eq_error_iff.mp h
  · obtain h | ⟨_, -, h⟩ := bind_eq_error_iff.mp h
    · exact ancestry_eq_error h
    · cases h
  · cases h

theorem mem_implementations {types : List TypeDef} (h : found ∈ implementations types method) :
    found.owner ∈ types ∧ found.owner.method? method = some found.method := by
  obtain ⟨t, ht, h⟩ := List.mem_filterMap.mp h
  obtain ⟨m, hm, rfl⟩ := Option.map_eq_some_iff.mp h
  exact ⟨ht, hm⟩

/-- A dispatch finds a method that its owner declares. -/
theorem type?_of_dispatch (h : p.dispatch type method arity = .ok found) :
    p.table.type? found.owner.name = some found.owner ∧
      found.owner.method? method = some found.method := by
  obtain ⟨types, ha, h⟩ := bind_eq_ok_iff.mp h
  dsimp only at h
  split at h
  · rename_i hf
    cases h
    obtain ⟨ht, hm⟩ := mem_implementations (List.mem_of_find?_eq_some hf)
    exact ⟨TypeTable.type?_of_mem_climb ha ht, hm⟩
  · split at h <;> cases h

/-- A dispatch finds the body at whose first position a call goes on. -/
theorem body?_of_dispatch (h : p.dispatch type method arity = .ok found) :
    p.body? found.owner.name method = some found.method.commands := by
  obtain ⟨howner, hmethod⟩ := type?_of_dispatch h
  simp [body?, howner, hmethod]

end Program

end Microstep
