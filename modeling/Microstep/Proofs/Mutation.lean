import Microstep.Proofs.Bracketing
import Microstep.Proofs.Objects
import Microstep.Proofs.Origin

/-!
# Assignments

Variables and fields change by assignment only. The step in which an assignment takes effect writes
to one place, and that place and the new value are what the operands of the assignment have come to
before. Every other step leaves the variables of all activations and the fields of all objects as
they are; what it adds is values of nodes, an activation on top, or a new object.

* `State.Writes`: the place to which the next step writes, and the value;
* `StacksKept`, `Memory.Kept`: the activations that two stacks have in common, counted from below,
  differ in values of nodes only, and no object is changed;
* `State.Mutates`, `State.transition_mutates`: what a step does to the memory;
* `State.assignment_mutates`: the only change of variables and fields in a step of a run.
-/

namespace Microstep

/-! ## Kept memory -/

/-- The frame is the same but for the values of nodes. -/
def Frame.Kept (f g : Frame) : Prop := g = { f with pending := g.pending }

/-- The frames are of one activation. -/
structure Frame.SameActivation (f g : Frame) : Prop where
  method : g.method = f.method
  caller : g.caller = f.caller
  self : g.self = f.self
  type : g.type = f.type

theorem Frame.Kept.sameActivation {f g : Frame} (h : f.Kept g) : f.SameActivation g := by
  rw [h]
  exact ⟨rfl, rfl, rfl, rfl⟩

/-- The activations that both stacks have, counted from below, are the same but for the values of
nodes. -/
def StacksKept (stack stack' : List Frame) : Prop :=
  ∀ (i : Nat) (f g : Frame), stack.reverse[i]? = some f → stack'.reverse[i]? = some g → f.Kept g

/-- What variables and objects hold in `m` they hold in `m'`. -/
structure Memory.Kept (m m' : Memory) : Prop where
  frames : StacksKept m.stack m'.stack
  objects : ∀ a o, m.heap.get a = .ok o → m'.heap.get a = .ok o

section

variable {f g : Frame} {rest rest' stack stack' : List Frame} {i : Nat}

theorem Frame.kept_record (f : Frame) (site : Site) (v : Value) : f.Kept (f.record site v) := rfl

theorem Frame.kept_clear (f : Frame) (position : Position) : f.Kept (f.clear position) := rfl

theorem getElem?_reverse_cons (f : Frame) (rest : List Frame) (i : Nat) :
    (f :: rest).reverse[i]? = if i = rest.length then some f else rest.reverse[i]? := by
  rw [List.reverse_cons, List.getElem?_append, List.length_reverse]
  obtain lt | rfl | gt := Nat.lt_trichotomy i rest.length
  · rw [if_pos lt, if_neg (Nat.ne_of_lt lt)]
  · simp
  · rw [if_neg (Nat.lt_asymm gt), if_neg (Nat.ne_of_gt gt), List.getElem?_eq_none (by simp; omega),
      List.getElem?_eq_none (by simp; omega)]

theorem lt_of_getElem?_reverse (h : stack.reverse[i]? = some f) : i < stack.length := by
  simpa using (List.getElem?_eq_some_iff.mp h).1

theorem StacksKept.refl (stack : List Frame) : StacksKept stack stack := by
  intro i f g hf hg
  cases hf.symm.trans hg
  rfl

/-- Stacks that differ in the top frame have the other frames in common. -/
theorem top_or_eq_of_getElem?_reverse {f' g' : Frame} (hf : (f :: rest).reverse[i]? = some f')
    (hg : (g :: rest).reverse[i]? = some g') :
    (i = rest.length ∧ f' = f ∧ g' = g) ∨ g' = f' := by
  rw [getElem?_reverse_cons] at hf hg
  by_cases top : i = rest.length
  · rw [if_pos top] at hf hg
    exact .inl ⟨top, (Option.some.inj hf).symm, (Option.some.inj hg).symm⟩
  · rw [if_neg top] at hf hg
    exact .inr (Option.some.inj (hg.symm.trans hf))

/-- The top frame may have other values of nodes. -/
theorem StacksKept.top (h : f.Kept g) (rest : List Frame) :
    StacksKept (f :: rest) (g :: rest) := by
  intro i f' g' hf hg
  obtain ⟨-, rfl, rfl⟩ | rfl := top_or_eq_of_getElem?_reverse hf hg
  · exact h
  · rfl

/-- A call adds a frame. -/
theorem StacksKept.push (stack : List Frame) (g : Frame) : StacksKept stack (g :: stack) := by
  intro i f' g' hf hg
  rw [getElem?_reverse_cons, if_neg (Nat.ne_of_lt (lt_of_getElem?_reverse hf))] at hg
  exact StacksKept.refl stack i f' g' hf hg

/-- A return takes the top frame off. -/
theorem StacksKept.pop (f : Frame) (h : StacksKept rest rest')
    (length : rest'.length = rest.length) : StacksKept (f :: rest) rest' := by
  intro i f' g' hf hg
  have lt := lt_of_getElem?_reverse hg
  rw [length] at lt
  rw [getElem?_reverse_cons, if_neg (Nat.ne_of_lt lt)] at hf
  exact h i f' g' hf hg

end

namespace Memory

variable {m m' : Memory} {l : Location} {name : String} {a : Address} {v : Value}

theorem Kept.of_heap_eq (heap : m'.heap = m.heap) (frames : StacksKept m.stack m'.stack) :
    m.Kept m' :=
  ⟨frames, fun _ _ ho => heap ▸ ho⟩

theorem write_var (h : m.write (.var name) v = .ok m') :
    ∃ f rest, m.stack = f :: rest ∧ m' = ⟨m.heap, f.bind name v :: rest⟩ := by
  cases hm : m.stack with
  | nil => simp [write, bind, modifyTop, hm] at h
  | cons f rest =>
    simp only [write, bind, modifyTop, hm, Except.ok.injEq] at h
    exact ⟨f, rest, rfl, h.symm⟩

theorem write_field (h : m.write (.field a name) v = .ok m') :
    m.heap.write a name v = .ok m'.heap ∧ m'.stack = m.stack := by
  obtain ⟨heap, hw, h⟩ := bind_eq_ok_iff.mp h
  cases h
  exact ⟨hw, rfl⟩

/-- A place has the value that was written to it. -/
theorem read_of_write (h : m.write l v = .ok m') : m'.read l = .ok v := by
  cases l with
  | var name =>
    obtain ⟨f, rest, -, rfl⟩ := write_var h
    simp [read, top, Frame.bind, Scope.read_bind]
  | field a name =>
    exact Heap.read_of_write (write_field h).1

/-- A write does not change the number of frames. -/
theorem length_of_write (h : m.write l v = .ok m') : m'.stack.length = m.stack.length := by
  cases l with
  | var name =>
    obtain ⟨f, rest, hm, rfl⟩ := write_var h
    simp [hm]
  | field a name => rw [(write_field h).2]

/-- Which values of nodes are kept does not matter to a read. -/
theorem read_clear (heap : Heap) (f : Frame) (rest : List Frame) (position : Position)
    (l : Location) : read ⟨heap, f.clear position :: rest⟩ l = read ⟨heap, f :: rest⟩ l := by
  cases l <;> rfl

end Memory

namespace Heap

variable {h h' : Heap} {a : Address} {name : String} {v : Value} {o : Object}

theorem get_of_allocate (o' : Object) (ho : h.get a = .ok o) :
    (h.allocate o').2.get a = .ok o := by
  rw [get_allocate, if_neg (Nat.ne_of_lt (index_lt_of_get ho)), ho]

/-- Only a field that an object has can be written to. -/
theorem mem_fields_of_write (hw : h.write a name v = .ok h') (ho : h.get a = .ok o) :
    name ∈ o.fields := by
  obtain ⟨o₁, ho₁, hw⟩ := bind_eq_ok_iff.mp hw
  cases ho.symm.trans ho₁
  obtain ⟨o', hwrite, -⟩ := bind_eq_ok_iff.mp hw
  rw [Object.write] at hwrite
  split at hwrite
  · assumption
  · cases hwrite

end Heap

/-! ## Writes -/

namespace State

variable {p : Program} {s s₀ s' : State} {f : Frame} {rest : List Frame} {r : Redex} {c : Command}
  {l l' : Location} {v v' : Value} {vs : List Value} {n : Nat}

/-- The activations, the one that the run started with first. -/
def activations (s : State) : List Frame := s.memory.stack.reverse

/-- The next step writes the value to the location: the command is an assignment, the value is that
of its right side, and the location is the variable on its left side, or the field there of the
object that the receiver has come to. -/
inductive Writes (p : Program) (s : State) : Location → Value → Prop
  | var {name : String} {value : Expr} {v : Value}
      (command : p.commandAt s.position = .ok (some (.assign (.var name) value)))
      (evaluated : s.evaluate [1] value = .ok (some v)) : Writes p s (.var name) v
  | field {receiver value : Expr} {name : String} {a : Address} {v : Value}
      (command : p.commandAt s.position = .ok (some (.assign (.field receiver name) value)))
      (object : s.evaluate [0, 0] receiver = .ok (some (.ref a)))
      (evaluated : s.evaluate [1] value = .ok (some v)) : Writes p s (.field a name) v

/-- A step writes to one place at most. -/
theorem Writes.unique (h : s.Writes p l v) (h' : s.Writes p l' v') : l' = l ∧ v' = v := by
  cases h with
  | var command evaluated =>
    cases h' with
    | var command' evaluated' =>
      cases command.symm.trans command'
      cases evaluated.symm.trans evaluated'
      exact ⟨rfl, rfl⟩
    | field command' => cases command.symm.trans command'
  | field command object evaluated =>
    cases h' with
    | var command' => cases command.symm.trans command'
    | field command' object' evaluated' =>
      cases command.symm.trans command'
      cases object.symm.trans object'
      cases evaluated.symm.trans evaluated'
      exact ⟨rfl, rfl⟩

/-- An assignment to a field is ready when its receiver and its right side have values. -/
theorem readiness_assign_field (hs : s.memory.stack = f :: rest) {receiver value : Expr}
    {name : String} (object : s.evaluate [0, 0] receiver = .ok (some v))
    (evaluated : s.evaluate [1] value = .ok (some v')) :
    (Command.assign (.field receiver name) value).readiness s.known = .ready [v, v'] := by
  rw [evaluate_eq hs] at object evaluated
  have receiver := Expr.readiness_of_value (Except.ok.inj object)
  have ready := Expr.readiness_of_value (Except.ok.inj evaluated)
  simp [Command.readiness, Command.operands, Expr.targetOperands, Expr.readinessEach, receiver,
    ready]

/-- What a step that writes starts from: an assignment of which nothing is due. -/
theorem Writes.ready (h : s.Writes p l v) (hs : s.memory.stack = f :: rest) :
    ∃ target value vs, p.commandAt s.position = .ok (some (.assign target value)) ∧
      (Command.assign target value).readiness s.known = .ready vs := by
  cases h with
  | var command evaluated =>
    rw [evaluate_eq hs] at evaluated
    have ready := Expr.readiness_of_value (Except.ok.inj evaluated)
    exact ⟨_, _, [v], command, by
      simp [Command.readiness, Command.operands, Expr.targetOperands, Expr.readinessEach, ready]⟩
  | field command object evaluated =>
    exact ⟨_, _, _, command, readiness_assign_field hs object evaluated⟩

/-! ## Steps that write nothing -/

theorem Fires.kept (hs : s.memory.stack = f :: rest) (h : Fires p s f rest r s') :
    s.memory.Kept s'.memory := by
  cases h with
  | value v source => exact .of_heap_eq rfl (hs ▸ .top (f.kept_record _ v) rest)
  | object source fresh =>
    exact ⟨hs ▸ .top (f.kept_record _ _) rest, fun a o ho => Heap.get_of_allocate _ ho⟩
  | call source values typeOf dispatch => exact .of_heap_eq rfl (.push _ _)

theorem Returns.kept {v : Option Value} (hs : s.memory.stack = f :: rest)
    (h : Returns s f rest v s') : s.memory.Kept s'.memory := by
  refine .of_heap_eq h.heap ?_
  rw [hs]
  cases h with
  | finish caller => exact .pop f (.refl rest) rfl
  | resume caller hrest =>
    subst hrest
    exact .pop f (.top (Frame.kept_record ..) _) rfl

theorem moveTo_kept (hs : s.memory.stack = f :: rest) {q : Position} (h : s.moveTo q = .ok s') :
    s.memory.Kept s'.memory := by
  rw [moveTo_eq hs] at h
  cases h
  exact .of_heap_eq rfl (hs ▸ .top (f.kept_clear _) rest)

/-- Leaving a command drops the values of its nodes. -/
theorem memory_of_leave (hs : s.memory.stack = f :: rest) (h : s.leave p = .ok s') :
    s'.memory = ⟨s.memory.heap, f.clear s.position :: rest⟩ := by
  obtain ⟨q, -, h⟩ := bind_eq_ok_iff.mp h
  rw [moveTo_eq hs] at h
  cases h
  rfl

theorem leave_kept (hs : s.memory.stack = f :: rest) (h : s.leave p = .ok s') :
    s.memory.Kept s'.memory := by
  obtain ⟨q, -, h⟩ := bind_eq_ok_iff.mp h
  exact moveTo_kept hs h

theorem enter_kept (hs : s.memory.stack = f :: rest) {block : Nat} {branch : List Command}
    (h : s.enter p block branch = .ok s') : s.memory.Kept s'.memory := by
  unfold enter at h
  split at h
  · exact leave_kept hs h
  · exact moveTo_kept hs h

theorem choose_kept (hs : s.memory.stack = f :: rest) {condition : Expr}
    {thenBranch : List Command} {elseBranch : Option (List Command)}
    (h : s.choose p condition thenBranch elseBranch v = .ok s') : s.memory.Kept s'.memory := by
  unfold choose at h
  split at h
  · cases h
  · exact enter_kept hs h
  · exact enter_kept hs h
  · exact leave_kept hs h

/-! ## What a step does to the memory -/

/-- The effect of the step from `s` to `s'` on the memory: nothing is written and all is kept, or
one place is written to, and the assignment is left. -/
inductive Mutates (p : Program) (s s' : State) : Prop
  | idle (idle : ∀ l v, ¬ s.Writes p l v) (kept : s.memory.Kept s'.memory)
  | write {l : Location} {v : Value} {m : Memory} {f : Frame} {rest : List Frame}
      (writes : s.Writes p l v) (written : s.memory.write l v = .ok m)
      (stack : m.stack = f :: rest) (memory : s'.memory = ⟨m.heap, f.clear s.position :: rest⟩)

/-- A command that is no assignment writes nothing. -/
theorem idle_of_command (hc : p.commandAt s.position = .ok (some c))
    (other : ∀ target value, c ≠ .assign target value) (l : Location) (v : Value) :
    ¬ s.Writes p l v := by
  intro writes
  cases writes with
  | var command => exact other _ _ (Option.some.inj (Except.ok.inj (hc.symm.trans command)))
  | field command => exact other _ _ (Option.some.inj (Except.ok.inj (hc.symm.trans command)))

/-- A command takes effect with what its operands have come to. -/
theorem evaluate_of_ready (hs : s.memory.stack = f :: rest)
    (hr : c.readiness s.known = .ready vs) {i : Nat} {path : ExprPath} {e : Expr}
    (hv : vs[i]? = some v) (he : c.operands[i]? = some (path, e)) :
    s.evaluate path e = .ok (some v) := by
  obtain ⟨path', e', he', hv⟩ := Command.values_of_readiness hr hv
  cases he.symm.trans he'
  rw [evaluate_eq hs, hv]

/-- A command that takes effect writes only if it is an assignment. -/
theorem perform_mutates (hs : s.memory.stack = f :: rest)
    (hc : p.commandAt s.position = .ok (some c)) (hr : c.readiness s.known = .ready vs)
    (h : s.perform p c vs = .ok s') : Mutates p s s' := by
  unfold perform at h
  split at h
  · exact .idle (idle_of_command hc (by simp)) (moveTo_kept hs h)
  · rename_i name value v vs'
    obtain ⟨m, hm, h⟩ := bind_eq_ok_iff.mp h
    have stack : m.stack = f.bind name v :: rest := by
      obtain ⟨f', rest', hs', rfl⟩ := Memory.write_var hm
      cases hs.symm.trans hs'
      rfl
    have evaluated : s.evaluate [1] value = .ok (some v) :=
      evaluate_of_ready hs hr (i := 0) rfl rfl
    exact .write (.var hc evaluated) hm stack
      (memory_of_leave (s := { s with memory := m }) stack h)
  · rename_i receiver name value r v vs'
    simp only [bind_eq_ok_iff] at h
    obtain ⟨a, ha, m, hm, h⟩ := h
    obtain rfl := address_eq_ok ha
    have stack : m.stack = f :: rest := (Memory.write_field hm).2.trans hs
    have object : s.evaluate [0, 0] receiver = .ok (some (.ref a)) :=
      evaluate_of_ready hs hr (i := 0) rfl rfl
    have evaluated : s.evaluate [1] value = .ok (some v) :=
      evaluate_of_ready hs hr (i := 1) rfl rfl
    exact .write (.field hc object evaluated) hm stack
      (memory_of_leave (s := { s with memory := m }) stack h)
  · exact .idle (idle_of_command hc (by simp)) (choose_kept hs h)
  · exact .idle (idle_of_command hc (by simp)) (leave_kept hs h)
  · exact .idle (idle_of_command hc (by simp)) ((returnWith_cases hs h).kept hs)
  · exact .idle (idle_of_command hc (by simp)) ((returnWith_cases hs h).kept hs)
  · cases h

theorem transition_mutates (hs : s.memory.stack = f :: rest) (h : s.transition p = .ok s') :
    Mutates p s s' := by
  obtain ⟨command?, hc, h⟩ := bind_eq_ok_iff.mp h
  cases command? with
  | none =>
    refine .idle (fun l v writes => ?_) ((returnWith_cases hs h).kept hs)
    obtain ⟨target, value, vs, command, -⟩ := writes.ready hs
    cases hc.symm.trans command
  | some c =>
    have h : s.execute p c = .ok s' := h
    cases hf : c.fault? with
    | some e =>
      rw [execute_of_fault hf] at h
      cases h
    | none =>
      rw [execute_eq hs hf] at h
      cases hr : c.readiness s.known with
      | ready vs =>
        rw [hr] at h
        exact perform_mutates hs hc hr h
      | due r =>
        rw [hr] at h
        obtain ⟨hconst, hlen⟩ := Command.operands_of_readiness hr
        refine .idle (fun l v writes => ?_) ((fire_cases hs hconst hlen h).kept hs)
        obtain ⟨target, value, vs, command, ready⟩ := writes.ready hs
        cases hc.symm.trans command
        rw [hr] at ready
        cases ready

/-! ## Frames and objects after a step -/

/-- What a step keeps of an activation, and what it may write there. -/
theorem Mutates.frame (h : Mutates p s s') {i : Nat} {f g : Frame}
    (hf : s.activations[i]? = some f) (hg : s'.activations[i]? = some g) :
    f.SameActivation g ∧ (g.locals = f.locals ∨ ∃ name v, s.Writes p (.var name) v ∧
      i + 1 = s.depth ∧ g.locals = f.locals.insert name v) := by
  cases h with
  | idle _ kept =>
    have same := kept.frames i f g hf hg
    exact ⟨same.sameActivation, .inl (by rw [same])⟩
  | @write l v m top rest writes written stack memory =>
    rw [activations, memory] at hg
    cases l with
    | var name =>
      -- The variable is one of the top frame; all frames below are those of `s`.
      obtain ⟨before, below, hs, rfl⟩ := Memory.write_var written
      cases stack
      rw [activations, hs] at hf
      obtain ⟨rfl, rfl, rfl⟩ | rfl := top_or_eq_of_getElem?_reverse hf hg
      · exact ⟨⟨rfl, rfl, rfl, rfl⟩, .inr ⟨name, v, writes, (depth_eq hs).symm, rfl⟩⟩
      · exact ⟨⟨rfl, rfl, rfl, rfl⟩, .inl rfl⟩
    | field a name =>
      rw [activations, ← (Memory.write_field written).2, stack] at hf
      have same := StacksKept.top (top.kept_clear s.position) rest i f g hf hg
      exact ⟨same.sameActivation, .inl (by rw [same])⟩

/-- What a step keeps of an object, and what it may write there. -/
theorem Mutates.object (h : Mutates p s s') {a : Address} {o : Object}
    (ho : s.memory.heap.get a = .ok o) :
    s'.memory.heap.get a = .ok o ∨ ∃ name v, s.Writes p (.field a name) v ∧ name ∈ o.fields ∧
      s'.memory.heap.get a = .ok { o with fields := o.fields.insert name v } := by
  cases h with
  | idle _ kept => exact .inl (kept.objects a o ho)
  | @write l v m top rest writes written stack memory =>
    rw [memory]
    cases l with
    | var name =>
      obtain ⟨before, below, -, rfl⟩ := Memory.write_var written
      exact .inl ho
    | field b name =>
      obtain ⟨hw, -⟩ := Memory.write_field written
      obtain ⟨o₁, ho₁, hget⟩ := Heap.get_write hw
      by_cases hab : a = b
      · subst hab
        cases ho.symm.trans ho₁
        exact .inr ⟨name, v, writes, Heap.mem_fields_of_write hw ho, by simp [hget]⟩
      · exact .inl (by simp [hget, hab, ho])

/-- What a step writes can be read after it. -/
theorem Mutates.written (h : Mutates p s s') (writes : s.Writes p l v) :
    s'.depth = s.depth ∧ s'.memory.read l = .ok v := by
  cases h with
  | idle idle => exact absurd writes (idle l v)
  | write writes' written stack memory =>
    obtain ⟨rfl, rfl⟩ := writes'.unique writes
    constructor
    · rw [depth, depth, memory, Memory.depth, Memory.depth, ← Memory.length_of_write written, stack]
      rfl
    · rw [memory, Memory.read_clear, ← stack]
      exact Memory.read_of_write written

/-- An assignment of which nothing is due writes, unless it fails. -/
theorem writes_of_ready {target value : Expr} (h : s.transition p = .ok s')
    (command : p.commandAt s.position = .ok (some (.assign target value)))
    (ready : s.targetReady [0] target = .ok true)
    (evaluated : s.evaluate [1] value = .ok (some v)) : ∃ l, s.Writes p l v := by
  cases target with
  | var name => exact ⟨_, .var command evaluated⟩
  | field receiver name =>
    obtain ⟨v?, receiver?, known⟩ := bind_eq_ok_iff.mp ready
    obtain ⟨r, rfl⟩ := Option.isSome_iff_exists.mp (Except.ok.inj known)
    have receiver? : s.evaluate [0, 0] receiver = .ok (some r) := receiver?
    simp only [transition, command, ok_bind, execute, ready, ↓reduceIte, withOperand, evaluated,
      writeTarget, location, List.cons_append, List.nil_append, receiver?, bind_eq_ok_iff] at h
    obtain ⟨m, ⟨location, ⟨a, object, -⟩, -⟩, -⟩ := h
    obtain rfl := address_eq_ok object
    exact ⟨_, .field command receiver? evaluated⟩
  | _ => cases ready

/-- Assignment is the only mutator. In a step of a run, every activation that stays is the same one
and keeps its variables, and every object keeps its type and fields; the exception is the one
variable of the activation on top, or the one field of one object, to which an assignment writes
whose receiver and value are evaluated, and which has that value afterwards. -/
theorem assignment_mutates {type method : String} (start : State.start p type method = .ok s₀)
    (run : s₀.iterate p n = .ok s) (next : s.advance p = .ok s') :
    (∀ (i : Nat) (f g : Frame), s.activations[i]? = some f → s'.activations[i]? = some g →
      f.SameActivation g ∧ (g.locals = f.locals ∨ ∃ name v, s.Writes p (.var name) v ∧
        i + 1 = s.depth ∧ g.locals = f.locals.insert name v)) ∧
    (∀ a o, s.memory.heap.get a = .ok o →
      s'.memory.heap.get a = .ok o ∨ ∃ name v, s.Writes p (.field a name) v ∧ name ∈ o.fields ∧
        s'.memory.heap.get a = .ok { o with fields := o.fields.insert name v }) ∧
    (∀ l v, s.Writes p l v → s'.depth = s.depth ∧ s'.memory.read l = .ok v ∧
      ∀ l' v', s.Writes p l' v' → l' = l ∧ v' = v) ∧
    ∀ target value v, p.commandAt s.position = .ok (some (.assign target value)) →
      s.targetReady [0] target = .ok true → s.evaluate [1] value = .ok (some v) →
        ∃ l, s.Writes p l v := by
  have valid := iterate_valid (start_valid start) run
  obtain ⟨status, moved, path, hn, rfl⟩ := advance_eq_ok next
  obtain ⟨f, rest, hs, -⟩ := valid.of_running status
  have mutates := transition_mutates hs hn
  refine ⟨fun i f g hf hg => mutates.frame hf hg, fun a o ho => mutates.object ho,
    fun l v writes => ?_, fun target value v command ready evaluated =>
      writes_of_ready hn command ready evaluated⟩
  obtain ⟨depth, read⟩ := mutates.written writes
  exact ⟨depth, read, fun l' v' writes' => writes.unique writes'⟩

/-- Step 12 of the counter writes 1 to the field of the object at address 1. -/
theorem assignment_mutates_counter :
    ∃ s₀ s s' : State, State.start .counter "Main" "main" = .ok s₀ ∧
      s₀.iterate .counter 11 = .ok s ∧ s.advance .counter = .ok s' ∧
      s.Writes .counter (.field ⟨1⟩ "n") (.int 1) ∧
      s'.memory.read (.field ⟨1⟩ "n") = .ok (.int 1) := by
  have ready : ((State.start .counter "Main" "main").bind (·.iterate .counter 11)).toOption.map
      (fun s => (s.position, s.known [0, 0], s.known [1])) =
      some (⟨"Counter", "add", [⟨0, 1⟩]⟩, some (.ref ⟨1⟩), some (.int 1)) := by decide +kernel
  have goes : ((State.start .counter "Main" "main").bind (·.iterate .counter 12)).toOption.map
      State.depth = some 2 := by decide +kernel
  obtain ⟨s₀, s, s', hs₀, run, next, seen, -⟩ := exists_step_of_view ready goes
  simp only [Prod.mk.injEq] at seen
  obtain ⟨position, object, value⟩ := seen
  obtain ⟨status, -⟩ := advance_eq_ok next
  obtain ⟨f, rest, hs, -⟩ := (iterate_valid (start_valid hs₀) run).of_running status
  have writes : s.Writes .counter (.field ⟨1⟩ "n") (.int 1) :=
    .field (by rw [position]; rfl) ((evaluate_eq hs [0, 0] .self).trans (congrArg _ object))
      ((evaluate_eq hs [1] (.apply ..)).trans (congrArg _ value))
  obtain ⟨-, -, written, -⟩ := assignment_mutates hs₀ run next
  exact ⟨s₀, s, s', hs₀, run, next, writes, (written _ _ writes).2.1⟩

end State

end Microstep
