import Microstep.Memory.Operation
import Microstep.Proofs.Fields
import Microstep.Proofs.Liveness

/-!
# The laws of memory

A memory is a store. A place that can be written to is read back with the value that was written
last, and nothing else changes. A write hides an earlier one to the same place, and writes to two
places can be exchanged. New objects get addresses that were free, and the stack gives back what was
put on it.

* `Heap.write_eq_error_iff`, `Heap.write_write_self`, `Heap.write_write_comm`: writes to the heap;
* `Memory.Writable`, `Memory.Written`: which writes succeed, and what they change;
* `Memory.size_apply`, `Memory.size_applyAll`: how many objects there are after operations;
* `Memory.store_laws`: the laws, after any operations on the empty memory.
-/

namespace Microstep

/-! ## Maps and frames -/

section

variable {κ α : Type} [Ord κ] [Std.TransOrd κ] [Std.LawfulEqOrd κ] {k l : κ}

theorem insert_insert_self (t : Std.ExtTreeMap κ α) (k : κ) (a b : α) :
    (t.insert k a).insert k b = t.insert k b := by
  refine Std.ExtTreeMap.ext_getElem? fun i => ?_
  simp only [Std.ExtTreeMap.getElem?_insert]
  split <;> rfl

theorem insert_insert_comm (t : Std.ExtTreeMap κ α) (h : l ≠ k) (a b : α) :
    (t.insert k a).insert l b = (t.insert l b).insert k a := by
  refine Std.ExtTreeMap.ext_getElem? fun i => ?_
  simp only [Std.ExtTreeMap.getElem?_insert]
  by_cases hl : compare l i = .eq
  · have hk : ¬ compare k i = .eq := fun hk =>
      h ((Std.compare_eq_iff_eq.mp hl).trans (Std.compare_eq_iff_eq.mp hk).symm)
    rw [if_pos hl, if_neg hk, if_pos hl]
  · rw [if_neg hl, if_neg hl]

end

namespace Frame

theorem bind_bind_self (f : Frame) (name : String) (v w : Value) :
    (f.bind name v).bind name w = f.bind name w := by
  simp only [bind, Scope.bind, insert_insert_self]

theorem bind_bind_comm (f : Frame) {name other : String} (h : other ≠ name) (v w : Value) :
    (f.bind name v).bind other w = (f.bind other w).bind name v := by
  simp only [bind, Scope.bind, insert_insert_comm _ h]

end Frame

/-! ## The heap -/

namespace Heap

variable {h h₁ h₂ : Heap} {a b : Address} {x y : String} {v w : Value} {e : Error} {o o' : Object}

theorem ext_get (same : ∀ a, h₁.get a = h₂.get a) : h₁ = h₂ := by
  have objects : h₁.objects = h₂.objects := by
    refine Array.ext_getElem? fun i => ?_
    have := same ⟨i⟩
    simp only [get] at this
    cases hi : h₁.objects[i]? <;> cases hj : h₂.objects[i]? <;> simp_all
  cases h₁
  cases h₂
  exact congrArg Heap.mk objects

/-- A field can be written to if it can be read; if not, both fail alike. -/
theorem write_eq_error_iff : h.write a x v = .error e ↔ h.read a x = .error e := by
  cases ho : h.get a with
  | error e' => simp [write, read, ho]
  | ok o =>
    by_cases has : x ∈ o.fields
    · obtain ⟨h', hw⟩ := write_of_mem ho has v
      rw [hw, read_of_mem ho has]
      simp
    · rw [write_of_not_mem ho has, read_of_not_mem ho has]
      simp

theorem exists_write_iff : (∃ h', h.write a x v = .ok h') ↔ ∃ u, h.read a x = .ok u :=
  exists_ok_iff fun _ => write_eq_error_iff

/-- A write changes what one field of one object holds. -/
theorem read_write_of_ne (hw : h.write a x v = .ok h₁) (other : b = a → y ≠ x) :
    h₁.read b y = h.read b y := by
  obtain ⟨o, ho, hget⟩ := get_write hw
  by_cases hb : b = a
  · have lookup : (o.fields.insert x v)[y]? = o.fields[y]? := by
      simp [Std.ExtTreeMap.getElem?_insert, (other hb).symm]
    rw [read, read, hget, if_pos hb, hb, ho, ok_bind, ok_bind, Object.read, Object.read, lookup]
  · rw [read, read, hget, if_neg hb]

/-- A write keeps which fields an object has. -/
theorem mem_fields_write (hw : h.write a x v = .ok h₁) (ho : h.get b = .ok o)
    (ho' : h₁.get b = .ok o') : y ∈ o'.fields ↔ y ∈ o.fields := by
  obtain ⟨u, hu, hget⟩ := get_write hw
  rw [hget] at ho'
  split at ho'
  · rename_i hb
    subst hb
    cases hu.symm.trans ho
    cases ho'
    have has := mem_fields_of_write hw ho
    rw [Std.ExtTreeMap.mem_insert, Std.compare_eq_iff_eq]
    exact ⟨fun h => h.elim (fun same => same ▸ has) id, .inr⟩
  · cases ho'.symm.trans ho
    rfl

/-- Of two writes to a field the first one is lost. -/
theorem write_write_self (hw : h.write a x v = .ok h₁) (w : Value) :
    h₁.write a x w = h.write a x w := by
  obtain ⟨o, ho, hget⟩ := get_write hw
  obtain ⟨h₂, hw₂⟩ := write_of_mem ho (mem_fields_of_write hw ho) w
  obtain ⟨h₃, hw₃⟩ := exists_write_iff (v := w) |>.mpr ⟨v, read_of_write hw⟩
  obtain ⟨o₂, ho₂, hget₂⟩ := get_write hw₂
  obtain ⟨o₃, ho₃, hget₃⟩ := get_write hw₃
  cases ho.symm.trans ho₂
  cases ho₃.symm.trans ((hget a).trans (if_pos rfl))
  rw [hw₂, hw₃]
  refine congrArg Except.ok (ext_get fun b => ?_)
  rw [hget₃, hget₂, hget, insert_insert_self]
  split <;> rfl

/-- Writes to two fields can be exchanged. -/
theorem write_write_comm (hv : h.write a x v = .ok h₁) (hw : h.write b y w = .ok h₂)
    (other : b = a → y ≠ x) : h₁.write b y w = h₂.write a x v := by
  have other' (hb : a = b) : x ≠ y := (other hb.symm).symm
  obtain ⟨u, hu⟩ := exists_write_iff.mp ⟨h₂, hw⟩
  obtain ⟨u', hu'⟩ := exists_write_iff.mp ⟨h₁, hv⟩
  obtain ⟨h₃, hw₃⟩ := exists_write_iff (v := w) |>.mpr ⟨u, (read_write_of_ne hv other).trans hu⟩
  obtain ⟨h₄, hv₄⟩ := exists_write_iff (v := v) |>.mpr ⟨u', (read_write_of_ne hw other').trans hu'⟩
  obtain ⟨o, ho, hget₁⟩ := get_write hv
  obtain ⟨o', ho', hget₂⟩ := get_write hw
  obtain ⟨o₃, ho₃, hget₃⟩ := get_write hw₃
  obtain ⟨o₄, ho₄, hget₄⟩ := get_write hv₄
  rw [hw₃, hv₄]
  refine congrArg Except.ok (ext_get fun c => ?_)
  rw [hget₁] at ho₃
  rw [hget₂] at ho₄
  rw [hget₃, hget₄, hget₁, hget₂]
  -- two fields of one object, or fields of two objects
  by_cases hb : b = a
  · subst hb
    cases ho.symm.trans ho'
    cases ho₃.symm.trans (if_pos rfl)
    cases ho₄.symm.trans (if_pos rfl)
    rw [insert_insert_comm _ (other rfl)]
    split <;> rfl
  · rw [if_neg hb] at ho₃
    rw [if_neg (Ne.symm hb)] at ho₄
    cases ho'.symm.trans ho₃
    cases ho.symm.trans ho₄
    by_cases hc : c = b
    · rw [if_pos hc, if_neg (hc ▸ hb), if_pos hc]
    · rw [if_neg hc, if_neg hc]

end Heap

/-! ## Writes -/

namespace Memory

variable {m m' m₁ m₂ : Memory} {l l' : Location} {v w : Value} {e : Error}

/-- The location can be written to: a variable if there is a frame, a field if it can be read. -/
def Writable (m : Memory) : Location → Prop
  | .var _ => m.stack ≠ []
  | .field a name => ∃ v, m.read (.field a name) = .ok v

/-- What has changed from `m` to `m'` is that `l` holds `v`. -/
structure Written (m : Memory) (l : Location) (v : Value) (m' : Memory) : Prop where
  read : m'.read l = .ok v
  others : ∀ l', l' ≠ l → m'.read l' = m.read l'
  lower : m'.stack.tail = m.stack.tail
  pending : m'.stack.map (·.pending) = m.stack.map (·.pending)
  activations : m'.stack.map (fun f => (f.method, f.caller, f.self, f.type)) =
    m.stack.map fun f => (f.method, f.caller, f.self, f.type)
  addresses : ∀ a, m'.heap.Allocated a ↔ m.heap.Allocated a
  types : ∀ a, m'.heap.typeOf a = m.heap.typeOf a
  fields : ∀ a o o', m.heap.get a = .ok o → m'.heap.get a = .ok o' →
    ∀ name, name ∈ o'.fields ↔ name ∈ o.fields

theorem exists_write_iff : (∃ m', m.write l v = .ok m') ↔ m.Writable l := by
  cases l with
  | var name => cases hm : m.stack <;> simp [write, bind, modifyTop, hm, Writable]
  | field a name =>
    rw [Writable, read, ← Heap.exists_write_iff (v := v)]
    exact exists_ok_iff fun e => by simp [write, bind_eq_error_iff]

/-- A write fails as a read of the location does. -/
theorem read_of_write_eq_error (h : m.write l v = .error e) : m.read l = .error e := by
  cases l with
  | var name =>
    cases hm : m.stack with
    | nil =>
      simp only [write, bind, modifyTop, hm] at h
      cases h
      simp [read, top, hm]
    | cons f rest => simp [write, bind, modifyTop, hm] at h
  | field a name =>
    obtain failed | ⟨_, _, failed⟩ := bind_eq_error_iff.mp h
    · exact Heap.write_eq_error_iff.mp failed
    · cases failed

theorem read_write_of_ne (h : m.write l v = .ok m') (other : l' ≠ l) : m'.read l' = m.read l' := by
  cases l with
  | var name =>
    obtain ⟨f, rest, hm, rfl⟩ := write_var h
    cases l' with
    | var name' =>
      have other : name ≠ name' := fun same => other (same ▸ rfl)
      simp [read, top, hm, Frame.bind, Scope.read_bind, other]
    | field => rfl
  | field a name =>
    obtain ⟨hw, stack⟩ := write_field h
    cases l' with
    | var name' => rw [read, read, top, top, stack]
    | field b name' =>
      exact Heap.read_write_of_ne hw fun hb hn => other (hb ▸ hn ▸ rfl)

theorem written_of_write (h : m.write l v = .ok m') : m.Written l v m' := by
  have read := read_of_write h
  have others (l' : Location) (other : l' ≠ l) := read_write_of_ne h other
  cases l with
  | var name =>
    obtain ⟨f, rest, hm, rfl⟩ := write_var h
    refine ⟨read, others, by rw [hm]; rfl, by rw [hm]; rfl, by rw [hm]; rfl, fun _ => Iff.rfl,
      fun _ => rfl, ?_⟩
    intro a o o' ho ho'
    cases ho.symm.trans ho'
    exact fun _ => Iff.rfl
  | field a name =>
    obtain ⟨hw, stack⟩ := write_field h
    refine ⟨read, others, by rw [stack], by rw [stack], by rw [stack], fun b => ?_,
      Heap.typeOf_write hw, ?_⟩
    · rw [Heap.allocated_iff_index_lt, Heap.allocated_iff_index_lt, Heap.size_write hw]
    · exact fun b o o' ho ho' _ => Heap.mem_fields_write hw ho ho'

/-- What can be written to before a write can be written to after it. -/
theorem Writable.of_write (writable : m.Writable l') (h : m.write l v = .ok m') :
    m'.Writable l' := by
  cases l' with
  | var name =>
    intro nil
    have length := length_of_write h
    rw [nil] at length
    exact writable (List.length_eq_zero_iff.mp length.symm)
  | field a name =>
    by_cases same : Location.field a name = l
    · exact ⟨v, same ▸ read_of_write h⟩
    · obtain ⟨u, hu⟩ := writable
      exact ⟨u, (read_write_of_ne h same).trans hu⟩

/-- Of two writes to one location the first one is lost. -/
theorem write_write_self (h : m.write l v = .ok m') (w : Value) : m'.write l w = m.write l w := by
  cases l with
  | var name =>
    obtain ⟨f, rest, hm, rfl⟩ := write_var h
    simp [write, bind, modifyTop, hm, Frame.bind_bind_self]
  | field a name =>
    obtain ⟨hw, stack⟩ := write_field h
    rw [write, write, Heap.write_write_self hw, stack]

theorem write_var_field_comm {x y : String} {a : Address} (hv : m.write (.var x) v = .ok m₁)
    (hw : m.write (.field a y) w = .ok m₂) :
    m₁.write (.field a y) w = m₂.write (.var x) v := by
  obtain ⟨f, rest, hm, rfl⟩ := write_var hv
  obtain ⟨hw, stack⟩ := write_field hw
  simp [write, bind, modifyTop, hw, stack, hm]

/-- Writes to two locations can be exchanged. -/
theorem write_write_comm (hv : m.write l v = .ok m₁) (hw : m.write l' w = .ok m₂) (other : l' ≠ l) :
    m₁.write l' w = m₂.write l v := by
  cases l with
  | var x =>
    cases l' with
    | var y =>
      obtain ⟨f, rest, hm, rfl⟩ := write_var hv
      obtain ⟨f', rest', hm', rfl⟩ := write_var hw
      obtain ⟨rfl, rfl⟩ := List.cons.inj (hm.symm.trans hm')
      have other : y ≠ x := fun same => other (same ▸ rfl)
      simp [write, bind, modifyTop, f.bind_bind_comm other]
    | field b y => exact write_var_field_comm hv hw
  | field a x =>
    cases l' with
    | var y => exact (write_var_field_comm hw hv).symm
    | field b y =>
      obtain ⟨hv, stack⟩ := write_field hv
      obtain ⟨hw, stack'⟩ := write_field hw
      have other (hb : b = a) (hn : y = x) : False := other (hb ▸ hn ▸ rfl)
      rw [write, write, Heap.write_write_comm hv hw other, stack, stack']

/-! ## Objects and frames -/

/-- What has changed from `m` to `m'` is that there is an object `o` at `a`, which was free. -/
structure Extended (m : Memory) (o : Object) (a : Address) (m' : Memory) : Prop where
  free : ∀ name, m.read (.field a name) = .error (.unknownAddress a)
  object : m'.heap.get a = .ok o
  read : ∀ name, m'.read (.field a name) = o.read name
  others : ∀ b, b ≠ a → m'.heap.get b = m.heap.get b
  stack : m'.stack = m.stack

theorem extended_allocate (m : Memory) (o : Object) :
    m.Extended o (m.allocate o).1 (m.allocate o).2 := by
  have object : (m.allocate o).2.heap.get (m.allocate o).1 = .ok o :=
    (m.heap.get_allocate o _).trans (if_pos rfl)
  have free : m.heap.get (m.allocate o).1 = .error (.unknownAddress (m.allocate o).1) := by
    simp [Heap.get, allocate, Heap.allocate, Heap.size]
  refine ⟨fun name => ?_, object, fun name => ?_, fun b other => ?_, rfl⟩
  · rw [read, Heap.read, free]
    rfl
  · rw [read, Heap.read, object]
    rfl
  · exact (m.heap.get_allocate o b).trans (if_neg fun index => other (congrArg Address.mk index))

/-- The values that the top frame keeps after one more has been kept, and after those for a command
have been dropped. Nothing else changes. -/
theorem clear_record {f : Frame} {rest : List Frame} (hm : m.stack = f :: rest) (site : Site)
    (v : Value) (position : Position) : ∃ recorded cleared,
      m.record site v = .ok ⟨m.heap, { f with pending := recorded } :: rest⟩ ∧
      (m.record site v >>= (·.clear position)) =
        .ok ⟨m.heap, { f with pending := cleared } :: rest⟩ ∧
      ∀ other : Site,
        recorded[other]? = (if site = other then some v else f.pending[other]?) ∧
        cleared[other]? = if other.position = position then none else recorded[other]? := by
  have recorded : m.record site v = .ok ⟨m.heap, f.record site v :: rest⟩ := by
    rw [record, modifyTop, hm]
  refine ⟨_, _, recorded, by rw [recorded]; rfl, fun other => ?_⟩
  exact ⟨f.getElem?_pending_record site other v,
    (f.record site v).getElem?_pending_clear position other⟩

/-! ## Operations -/

theorem heap_of_modifyTop {g : Frame → Frame} (h : m.modifyTop g = .ok m') : m'.heap = m.heap := by
  rw [modifyTop] at h
  split at h
  · cases h
    rfl
  · cases h

/-- An operation that succeeds adds an object if it is an allocation. -/
theorem size_apply {operation : Operation} (h : m.apply operation = .ok m') :
    m'.heap.size = m.heap.size + operation.isAllocate.toNat := by
  cases operation with
  | push frame =>
    cases h
    rfl
  | pop =>
    obtain ⟨⟨f, below⟩, hp, h⟩ := bind_eq_ok_iff.mp h
    cases h
    rw [pop] at hp
    split at hp
    · cases hp
      rfl
    · cases hp
  | allocate o =>
    cases h
    exact m.heap.size_allocate o
  | write l v =>
    cases l with
    | var name => rw [heap_of_modifyTop h]; rfl
    | field a name => exact Heap.size_write (write_field h).1
  | bind name v => rw [heap_of_modifyTop h]; rfl
  | record site v => rw [heap_of_modifyTop h]; rfl
  | clear position => rw [heap_of_modifyTop h]; rfl

/-- An allocation does not fail. -/
theorem isAllocate_of_apply_eq_error {operation : Operation} (h : m.apply operation = .error e) :
    operation.isAllocate = false := by
  cases operation with
  | allocate o => cases h
  | _ => rfl

/-- There is one object for each allocation. -/
theorem size_applyAll (m : Memory) (operations : List Operation) :
    (m.applyAll operations).heap.size =
      m.heap.size + operations.countP Operation.isAllocate := by
  induction operations generalizing m with
  | nil => rfl
  | cons operation operations ih =>
    have step : ((m.apply operation).toOption.getD m).heap.size =
        m.heap.size + operation.isAllocate.toNat := by
      cases h : m.apply operation with
      | ok m' => exact size_apply h
      | error e => rw [isAllocate_of_apply_eq_error h]; rfl
    rw [applyAll, List.foldl_cons, ← applyAll, ih, step, List.countP_cons]
    cases operation.isAllocate with
    | false => rfl
    | true => exact Nat.add_right_comm _ 1 _

/-- The laws of memory, after any operations. -/
theorem store_laws (operations : List Operation) :
    let m := empty.applyAll operations
    (∀ l v, ((∃ m', m.write l v = .ok m') ↔ m.Writable l) ∧
      ∀ e, m.write l v = .error e → m.read l = .error e) ∧
    (∀ l v m', m.write l v = .ok m' → m.Written l v m' ∧ ∀ w, m'.write l w = m.write l w) ∧
    (∀ l v m₁ l' w m₂, l' ≠ l → m.write l v = .ok m₁ → m.write l' w = .ok m₂ →
      ∃ m', m₁.write l' w = .ok m' ∧ m₂.write l v = .ok m') ∧
    (∀ o, m.Extended o (m.allocate o).1 (m.allocate o).2) ∧
    (∀ a, m.heap.Allocated a ↔ a.index < operations.countP Operation.isAllocate) ∧
    (∀ f, (m.push f).pop = .ok (f, m)) ∧
    (∀ f rest, m.stack = f :: rest → ∀ site v position, ∃ recorded cleared,
      m.record site v = .ok ⟨m.heap, { f with pending := recorded } :: rest⟩ ∧
      (m.record site v >>= (·.clear position)) =
        .ok ⟨m.heap, { f with pending := cleared } :: rest⟩ ∧
      ∀ other : Site,
        recorded[other]? = (if site = other then some v else f.pending[other]?) ∧
        cleared[other]? = if other.position = position then none else recorded[other]?) := by
  intro m
  refine ⟨fun l v => ⟨exists_write_iff, fun e => read_of_write_eq_error⟩,
    fun l v m' h => ⟨written_of_write h, write_write_self h⟩, ?_, m.extended_allocate, ?_,
    m.pop_push, fun f rest hm => clear_record hm⟩
  · intro l v m₁ l' w m₂ other hv hw
    obtain ⟨m', h⟩ := exists_write_iff.mpr ((exists_write_iff.mp ⟨m₂, hw⟩).of_write hv)
    exact ⟨m', h, (write_write_comm hv hw other).symm.trans h⟩
  · intro a
    rw [Heap.allocated_iff_index_lt, size_applyAll]
    exact Nat.zero_add _ ▸ Iff.rfl

/-- A lamp is allocated and its switch is flipped in the activation of a method. -/
theorem store_laws_lamp :
    let m := empty.applyAll [
      .push (.enter (.empty ⟨0⟩) "main" none "Main"),
      .allocate ⟨"Lamp", (∅ : Std.ExtTreeMap String Value).insert "on" (.bool false)⟩,
      .pop, .pop, .push (.enter (.empty ⟨0⟩) "flip" none "Lamp")]
    ∃ m₁ m₂ m', m.write (.var "x") (.int 1) = .ok m₁ ∧
      m.write (.field ⟨0⟩ "on") (.bool true) = .ok m₂ ∧
      m₁.write (.field ⟨0⟩ "on") (.bool true) = .ok m' ∧ m₂.write (.var "x") (.int 1) = .ok m' ∧
      m₁.read (.field ⟨0⟩ "on") = .ok (.bool false) ∧ m'.read (.field ⟨0⟩ "on") = .ok (.bool true) ∧
      ∀ a, m.heap.Allocated a ↔ a.index < 1 := by
  intro m
  obtain ⟨writable, written, exchange, -, addresses, -⟩ := store_laws [
      .push (.enter (.empty ⟨0⟩) "main" none "Main"),
      .allocate ⟨"Lamp", (∅ : Std.ExtTreeMap String Value).insert "on" (.bool false)⟩,
      .pop, .pop, .push (.enter (.empty ⟨0⟩) "flip" none "Lamp")]
  have off : m.read (.field ⟨0⟩ "on") = .ok (.bool false) := by decide +kernel
  obtain ⟨m₁, h₁⟩ := (writable (.var "x") (.int 1)).1.mpr (List.cons_ne_nil _ _)
  obtain ⟨m₂, h₂⟩ := (writable (.field ⟨0⟩ "on") (.bool true)).1.mpr ⟨_, off⟩
  obtain ⟨m', h', h''⟩ := exchange _ _ m₁ _ _ m₂ (by decide) h₁ h₂
  exact ⟨m₁, m₂, m', h₁, h₂, h', h'', ((written _ _ _ h₁).1.others _ (by decide)).trans off,
    read_of_write h', addresses⟩

end Memory

end Microstep
