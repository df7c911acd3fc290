import Microstep.Proofs.Transition

/-!
# Objects last

A run never gives up an object, and never changes the type of one. It makes an object in each step
that evaluates a `new` node, and in no other.

* `Heap.Changes`, `State.advance_changes`: what a step does to the heap;
* `Heap.Grows`, `State.iterate_grows`: the objects of a state are in all later ones;
* `State.creations`, `State.size_iterate`: the number of objects, by the steps that make one.
-/

namespace Microstep

/-- Whether a node makes an object. -/
def Expr.isNew : Expr → Bool
  | .new _ => true
  | _ => false

namespace Heap

variable {p : Program} {h h' h'' : Heap} {a : Address} {name type : String} {o : Object} {v : Value}

/-- What a step can do to the heap: nothing, or add a new object, or give a field a new value. -/
inductive Changes (p : Program) (h : Heap) : Heap → Prop
  | same : Changes p h h
  | allocate {type : String} {o : Object} (fresh : p.instantiate type = .ok o) :
    Changes p h (h.allocate o).2
  | write {a : Address} {name : String} {v : Value} {h' : Heap}
      (written : h.write a name v = .ok h') : Changes p h h'

/-- The objects of `h` are in `h'`, with the same types. -/
def Grows (h h' : Heap) : Prop := ∀ a type, h.typeOf a = .ok type → h'.typeOf a = .ok type

theorem Grows.refl (h : Heap) : h.Grows h := fun _ _ => id

theorem Grows.trans (g : h.Grows h') (g' : h'.Grows h'') : h.Grows h'' :=
  fun a type known => g' a type (g a type known)

theorem typeOf_eq_ok_iff : h.typeOf a = .ok type ↔ ∃ o, h.get a = .ok o ∧ o.type = type := by
  simp [typeOf]

theorem index_lt_of_get (ho : h.get a = .ok o) : a.index < h.size := by
  refine Nat.lt_of_not_le fun le => ?_
  simp [get, Array.getElem?_eq_none (show h.objects.size ≤ a.index from le)] at ho

theorem grows_allocate (h : Heap) (o : Object) : h.Grows (h.allocate o).2 := by
  intro a type known
  obtain ⟨o', ho', rfl⟩ := typeOf_eq_ok_iff.mp known
  refine typeOf_eq_ok_iff.mpr ⟨o', ?_, rfl⟩
  rw [get_allocate, if_neg (Nat.ne_of_lt (index_lt_of_get ho')), ho']

/-- A write keeps which objects there are, and their types. -/
theorem typeOf_write (hw : h.write a name v = .ok h') (b : Address) : h'.typeOf b = h.typeOf b := by
  obtain ⟨o, ho, hget⟩ := get_write hw
  rw [typeOf, typeOf, hget]
  split
  · rename_i hb
    rw [hb, ho]
    rfl
  · rfl

theorem grows_write (hw : h.write a name v = .ok h') : h.Grows h' :=
  fun b _ known => (typeOf_write hw b).trans known

theorem Changes.grows (changes : h.Changes p h') : h.Grows h' := by
  cases changes with
  | same => exact .refl h
  | allocate fresh => exact grows_allocate h _
  | write written => exact grows_write written

theorem read_of_write (hw : h.write a name v = .ok h') : h'.read a name = .ok v := by
  obtain ⟨o, -, hget⟩ := get_write hw
  simp [read, hget, Object.read]

theorem size_write (hw : h.write a name v = .ok h') : h'.size = h.size := by
  obtain ⟨o, -, hw⟩ := bind_eq_ok_iff.mp hw
  obtain ⟨o', -, hw⟩ := bind_eq_ok_iff.mp hw
  cases hw
  simp [size]

end Heap

/-- The value of a node takes a new object exactly if the node makes one. -/
theorem Expr.size_of_result {p : Program} {scope : Scope} {h h' : Heap} {e : Expr}
    {values : List Value} {v : Value} (hr : e.result p scope h values = .ok (v, h')) :
    h'.size = h.size + e.isNew.toNat := by
  cases e with
  | const | call => cases hr
  | self =>
    cases hr
    rfl
  | var | apply =>
    obtain ⟨v, -, hr⟩ := bind_eq_ok_iff.mp hr
    cases hr
    rfl
  | field receiver name =>
    cases values with
    | nil => cases hr
    | cons v vs =>
      obtain ⟨a, -, hr⟩ := bind_eq_ok_iff.mp hr
      obtain ⟨v, -, hr⟩ := bind_eq_ok_iff.mp hr
      cases hr
      rfl
  | new type =>
    obtain ⟨o, -, hr⟩ := bind_eq_ok_iff.mp hr
    cases hr
    exact h.size_allocate o

namespace State

variable {p : Program} {s s' t : State} {f : Frame} {rest : List Frame} {r : Redex} {c : Command}
  {v : Option Value} {m n : Nat}

/-! ## Steps -/

theorem Returns.heap (h : Returns s f rest v s') : s'.memory.heap = s.memory.heap := by
  cases h <;> rfl

theorem Fires.changes (h : Fires p s f rest r s') :
    s.memory.heap.Changes p s'.memory.heap := by
  cases h with
  | value v source => exact .same
  | object source fresh => exact .allocate fresh
  | call source values typeOf dispatch => exact .same

theorem Performs.changes (h : Performs p s f rest c s') :
    s.memory.heap.Changes p s'.memory.heap := by
  cases h with
  | move write bind goes =>
    obtain rfl | ⟨a, name, v, hw⟩ := write
    · exact .same
    · exact .write hw
  | «return» command returns =>
    rw [returns.heap]
    exact .same

theorem transition_changes (hs : s.memory.stack = f :: rest) (h : s.transition p = .ok s') :
    s.memory.heap.Changes p s'.memory.heap := by
  obtain ⟨command?, -, h⟩ := bind_eq_ok_iff.mp h
  cases command? with
  | none =>
    rw [(returnWith_cases hs h).heap]
    exact .same
  | some c =>
    obtain ⟨r, -, fires⟩ | ⟨vs, -, performs⟩ := execute_cases hs h
    · exact fires.changes
    · exact performs.changes

/-- Whether the next step evaluates a node that makes an object. -/
def creates (p : Program) (s : State) : Bool :=
  match p.commandAt s.position with
  | .ok (some c) =>
    match c.readiness s.known with
    | .due r => r.source.isNew
    | .ready _ => false
  | _ => false

theorem fire_size (hs : s.memory.stack = f :: rest) (due : c.readiness s.known = .due r)
    (h : s.fire p r = .ok s') :
    s'.memory.heap.size = s.memory.heap.size + r.source.isNew.toNat := by
  obtain ⟨hconst, hlen⟩ := Command.operands_of_readiness due
  cases hcall : r.source.isCall with
  | false =>
    rw [fire_value hs hconst hcall hlen] at h
    obtain ⟨⟨v, heap⟩, hv, h⟩ := bind_eq_ok_iff.mp h
    cases h
    exact Expr.size_of_result hv
  | true =>
    obtain ⟨receiver, method, args, v, vs, source, values⟩ := call_of_isCall hcall hlen
    rw [fire_call source values] at h
    obtain ⟨a, -, h⟩ := bind_eq_ok_iff.mp h
    obtain ⟨type, -, h⟩ := bind_eq_ok_iff.mp h
    obtain ⟨found, -, h⟩ := bind_eq_ok_iff.mp h
    cases h
    rw [source]
    rfl

theorem Performs.size (h : Performs p s f rest c s') :
    s'.memory.heap.size = s.memory.heap.size := by
  cases h with
  | move write bind goes =>
    obtain rfl | ⟨a, name, v, hw⟩ := write
    · rfl
    · exact Heap.size_write hw
  | «return» command returns => rw [returns.heap]

/-- A step makes an object if it evaluates a node that does. -/
theorem size_transition (hs : s.memory.stack = f :: rest) (h : s.transition p = .ok s') :
    s'.memory.heap.size = s.memory.heap.size + (s.creates p).toNat := by
  obtain ⟨command?, hc, h⟩ := bind_eq_ok_iff.mp h
  cases command? with
  | none =>
    rw [(returnWith_cases hs h).heap, creates, hc]
    rfl
  | some c =>
    have h : s.execute p c = .ok s' := h
    cases hf : c.fault? with
    | some e => rw [execute_of_fault hf] at h; cases h
    | none =>
      rw [execute_eq hs hf] at h
      cases hr : c.readiness s.known with
      | due r =>
        rw [hr] at h
        simp only [creates, hc, hr]
        exact fire_size hs hr h
      | ready vs =>
        rw [hr] at h
        simp only [creates, hc, hr]
        exact (perform_cases hs h).size

/-! ## Runs -/

theorem advance_changes (hv : Valid p s) (h : s.advance p = .ok s') :
    s.memory.heap.Changes p s'.memory.heap := by
  obtain ⟨status, next, path, hn, rfl⟩ := advance_eq_ok h
  obtain ⟨f, rest, hs, -⟩ := hv.of_running status
  have changes := transition_changes hs hn
  exact changes

theorem advance_heap (hv : Valid p s) (h : s.advance p = .ok s') :
    s.memory.heap.Grows s'.memory.heap ∧
      s'.memory.heap.size = s.memory.heap.size + (s.creates p).toNat := by
  have grows := (advance_changes hv h).grows
  obtain ⟨status, next, path, hn, rfl⟩ := advance_eq_ok h
  obtain ⟨f, rest, hs, -⟩ := hv.of_running status
  have size := size_transition hs hn
  exact ⟨grows, size⟩

/-- The objects of a state are in all later states of the run, with the same types. -/
theorem iterate_grows (hv : Valid p s) (h : s.iterate p n = .ok t) :
    s.memory.heap.Grows t.memory.heap := by
  have step (u u' : State) : Valid p u ∧ s.memory.heap.Grows u.memory.heap →
      u.advance p = .ok u' → Valid p u' ∧ s.memory.heap.Grows u'.memory.heap :=
    fun ⟨hv, grows⟩ hu => ⟨advance_valid hv hu, grows.trans (advance_heap hv hu).1⟩
  exact (iterate_induction step ⟨hv, .refl _⟩ h).2

/-- How many of the first `n` steps of the run from `s` make an object. -/
def creations (p : Program) (s : State) (n : Nat) : Nat :=
  (List.range n).countP fun i => (s.iterate p i).toOption.any (creates p)

theorem creations_succ (h : s.iterate p n = .ok t) :
    s.creations p (n + 1) = s.creations p n + (t.creates p).toNat := by
  rw [creations, List.range_succ, List.countP_append, List.countP_singleton, h]
  cases hc : t.creates p <;> simp [creations, Except.toOption, hc]

/-- The heap has one more object for each step that makes one. -/
theorem size_iterate (hv : Valid p s) (h : s.iterate p n = .ok t) :
    t.memory.heap.size = s.memory.heap.size + s.creations p n := by
  induction n generalizing t with
  | zero => cases h; rfl
  | succ n ih =>
    obtain ⟨u, hu, ha⟩ := bind_eq_ok_iff.mp (iterate_succ.symm.trans h)
    rw [(advance_heap (iterate_valid hv hu) ha).2, ih hu, creations_succ hu, Nat.add_assoc]

end State

end Microstep
