import Microstep.Program.Constants
import Microstep.Proofs.Liveness
import Microstep.Proofs.Occurrence
import Microstep.Proofs.Origin
import Microstep.Proofs.Safety

/-!
# References do not dangle

A program in which no reference is written as a constant gets its references from the heap, and they
stay good: whatever a state keeps, in its activations, in the fields of its objects or as its
result, refers to objects that exist. So no step looks up an address at which there is no object.

* `Program.constants_subset_of_commandAt`: the constants that a run can come upon;
* `State.Closed`: states without references to nothing;
* `State.sound_transition`: the step of a run;
* `State.references_allocated`: the references of every state of a run.
-/

namespace Microstep

/-- Every reference of a state refers to an object. -/
structure State.Closed (s : State) : Prop where
  frames : ∀ f ∈ s.memory.stack, Frame.Closed s.memory.heap f
  objects : s.memory.heap.Closed
  result : ∀ v, s.result? = some v → v.Live s.memory.heap

/-! ## Constants -/

namespace Expr

variable {e child : Expr} {es : List Expr}

theorem constants_subset_constantsOf (h : e ∈ es) : e.constants ⊆ constantsOf es := by
  induction es with
  | nil => cases h
  | cons c rest ih =>
    rw [constantsOf]
    obtain rfl | h := List.mem_cons.mp h
    · exact List.subset_append_left _ _
    · exact List.Subset.trans (ih h) (List.subset_append_right _ _)

theorem constants_subset_of_child (h : child ∈ e.children) : child.constants ⊆ e.constants := by
  cases e with
  | field receiver name =>
    obtain rfl := List.mem_singleton.mp h
    exact List.Subset.refl _
  | apply op operands => exact constants_subset_constantsOf h
  | call receiver method args =>
    have subset : child.constants ⊆ constantsOf (receiver :: args) := constants_subset_constantsOf h
    exact subset
  | _ => cases h

theorem constants_subset_of_node? {path : ExprPath} {node : Expr} (h : e.node? path = some node) :
    node.constants ⊆ e.constants := by
  induction path generalizing e with
  | nil =>
    cases h
    exact List.Subset.refl _
  | cons i path ih =>
    rw [node?] at h
    split at h
    · rename_i child hchild
      exact List.Subset.trans (ih h) (constants_subset_of_child (List.mem_of_getElem? hchild))
    · cases h

end Expr

/-- The nodes of a command hold no other constants than the command. -/
theorem Command.constants_subset_of_node? {c : Command} {path : ExprPath} {node : Expr}
    (h : c.node? path = some node) : node.constants ⊆ c.constants := by
  unfold node? at h
  split at h
  · exact List.Subset.trans (Expr.constants_subset_of_node? h) (List.subset_append_left _ _)
  · exact List.Subset.trans (Expr.constants_subset_of_node? h) (List.subset_append_right _ _)
  · exact Expr.constants_subset_of_node? h
  · exact Expr.constants_subset_of_node? h
  · exact Expr.constants_subset_of_node? h
  · cases h

/-- The commands that a run comes to hold no other constants than the program. -/
theorem Program.constants_subset_of_commandAt {p : Program} {position : Position} {c : Command}
    (h : p.commandAt position = .ok (some c)) : c.constants ⊆ p.constants := by
  obtain ⟨commands, hb, occurs⟩ := occurs_of_commandAt h
  obtain ⟨t, ht, m, hm, -, rfl⟩ := mem_methods_of_body? hb
  intro v hv
  exact List.mem_flatMap.mpr ⟨m, List.mem_flatMap.mpr ⟨t, ht, hm⟩,
    List.mem_flatMap.mpr ⟨_, occurs, hv⟩⟩

namespace State

variable {p : Program} {h' : Heap} {s s' t : State} {f : Frame} {rest : List Frame} {r : Redex}
  {c : Command}

/-! ## States -/

/-- A change of the top activation and of the heap. -/
theorem Closed.change {g : Frame} (closed : s.Closed) (hs : s.memory.stack = f :: rest)
    (status : s'.status = s.status) (memory : s'.memory = ⟨h', g :: rest⟩)
    (objects : h'.Closed) (grows : s.memory.heap.Grows h') (top : g.Closed h') : s'.Closed where
  frames := by
    rw [memory]
    refine List.forall_mem_cons.mpr ⟨top, fun k hk => (closed.frames k ?_).grow grows⟩
    rw [hs]
    exact List.mem_cons_of_mem f hk
  objects := by rwa [memory]
  result v hv := by
    rw [result?, status] at hv
    rw [memory]
    exact (closed.result v hv).grow grows

theorem Closed.top (closed : s.Closed) (hs : s.memory.stack = f :: rest) :
    f.Closed s.memory.heap := by
  refine closed.frames f ?_
  rw [hs]
  exact List.mem_cons_self

/-- What is known of an expression is live, if it is not a reference that the program writes. -/
theorem live_of_value? (refs : ∀ a, .ref a ∉ p.constants) (hs : s.memory.stack = f :: rest)
    (closed : s.Closed) {e : Expr} (he : e.constants ⊆ p.constants) {path : ExprPath} {v : Value}
    (hv : e.value? s.known path = some v) : v.Live s.memory.heap := by
  -- a constant is its own value; the value of any other node has been kept by the activation
  cases e with
  | const w =>
    cases hv
    have written : v ∈ p.constants := he List.mem_cons_self
    cases v with
    | ref a => exact (refs a written).elim
    | _ => trivial
  | _ => exact (closed.top hs).pending _ _ ((known_eq hs path).symm.trans hv)

theorem live_of_due (refs : ∀ a, .ref a ∉ p.constants) (hs : s.memory.stack = f :: rest)
    (closed : s.Closed) (command : p.commandAt s.position = .ok (some c))
    (due : c.readiness s.known = .due r) : ∀ v ∈ r.values, v.Live s.memory.heap := by
  intro v hv
  obtain ⟨i, hi⟩ := List.getElem?_of_mem hv
  obtain ⟨e, he, known⟩ := Command.draws_of_readiness due i v hi
  refine live_of_value? refs hs closed ?_ known
  have child := Expr.constants_subset_of_child (List.mem_of_getElem? he)
  have node := Command.constants_subset_of_node? (Command.node?_of_readiness due)
  exact List.Subset.trans child
    (List.Subset.trans node (Program.constants_subset_of_commandAt command))

theorem live_of_ready (refs : ∀ a, .ref a ∉ p.constants) (hs : s.memory.stack = f :: rest)
    (closed : s.Closed) (command : p.commandAt s.position = .ok (some c)) {vs : List Value}
    (ready : c.readiness s.known = .ready vs) : ∀ v ∈ vs, v.Live s.memory.heap := by
  intro v hv
  obtain ⟨i, hi⟩ := List.getElem?_of_mem hv
  obtain ⟨path, e, he, known⟩ := Command.values_of_readiness ready hi
  have node := Command.node?_of_mem_operands (List.mem_of_getElem? he) []
  rw [List.append_nil] at node
  refine live_of_value? refs hs closed ?_ known
  exact List.Subset.trans (Command.constants_subset_of_node? node)
    (Program.constants_subset_of_commandAt command)

/-! ## Steps -/

theorem sound_fire (hs : s.memory.stack = f :: rest) (closed : s.Closed)
    (due : c.readiness s.known = .due r) (live : ∀ v ∈ r.values, v.Live s.memory.heap) :
    Sound Closed (s.fire p r) := by
  obtain ⟨hconst, hlen⟩ := Command.operands_of_readiness due
  have top := closed.top hs
  cases hcall : r.source.isCall with
  | false =>
    rw [fire_value hs hconst hcall hlen]
    refine (Expr.sound_result closed.objects top.self top.locals live _).bind ?_
    rintro ⟨v, h'⟩ ⟨objects, grows, live⟩
    exact closed.change hs rfl rfl objects grows ((top.grow grows).record live _)
  | true =>
    obtain ⟨receiver, method, args, v, vs, source, values⟩ := call_of_isCall hcall hlen
    rw [fire_call source values]
    rw [values, List.forall_mem_cons] at live
    refine (Value.sound_address live.1 _).bind fun a known => ?_
    refine (Heap.sound_typeOf known).bind fun type _ => ?_
    refine (p.sound_dispatch _ _ _).bind fun found _ => ?_
    exact ⟨List.forall_mem_cons.mpr ⟨Frame.closed_enter known .empty live.2 _ _ _, closed.frames⟩,
      closed.objects, closed.result⟩

theorem sound_moveTo (hs : s.memory.stack = f :: rest) (closed : s.Closed) (q : Position) :
    Sound Closed (s.moveTo q) := by
  rw [moveTo_eq hs]
  exact closed.change hs rfl rfl closed.objects (.refl _) ((closed.top hs).clear _)

theorem sound_leave (hs : s.memory.stack = f :: rest) (closed : s.Closed) :
    Sound Closed (s.leave p) := by
  have next : Sound (fun _ => True) (p.next s.position) := by
    unfold Program.next
    dsimp only
    split
    · trivial
    · simp [Position.malformed]
  exact next.bind fun q _ => sound_moveTo hs closed q

theorem sound_enter (hs : s.memory.stack = f :: rest) (closed : s.Closed) (block : Nat)
    (branch : List Command) : Sound Closed (s.enter p block branch) := by
  unfold enter
  split
  · exact sound_leave hs closed
  · exact sound_moveTo hs closed _

theorem sound_choose (hs : s.memory.stack = f :: rest) (closed : s.Closed) (condition : Expr)
    (thenBranch : List Command) (elseBranch : Option (List Command)) (v : Value) :
    Sound Closed (s.choose p condition thenBranch elseBranch v) := by
  unfold choose
  split
  · simp
  · exact sound_enter hs closed _ _
  · exact sound_enter hs closed _ _
  · exact sound_leave hs closed

/-- The result of an activation is live where it goes. -/
theorem sound_returnWith (hs : s.memory.stack = f :: rest) (closed : s.Closed) {v : Option Value}
    (live : ∀ w, v = some w → w.Live s.memory.heap) : Sound Closed (s.returnWith v) := by
  rw [returnWith, Memory.pop_eq hs, ok_bind]
  dsimp only
  have below : ∀ g ∈ rest, g.Closed s.memory.heap := fun g hg =>
    closed.frames g (by rw [hs]; exact List.mem_cons_of_mem f hg)
  split
  · exact ⟨below, closed.objects, live⟩
  · cases rest with
    | nil => simp [Memory.record, Memory.modifyTop]
    | cons g rest =>
      rw [Memory.record_eq (m := ⟨s.memory.heap, g :: rest⟩) rfl]
      obtain ⟨hg, hrest⟩ := List.forall_mem_cons.mp below
      have delivered : (v.getD .null).Live s.memory.heap := by
        cases v with
        | none => trivial
        | some w => exact live w rfl
      exact ⟨List.forall_mem_cons.mpr ⟨hg.record delivered _, hrest⟩, closed.objects, closed.result⟩

theorem sound_perform (hs : s.memory.stack = f :: rest) (closed : s.Closed) {vs : List Value}
    (live : ∀ v ∈ vs, v.Live s.memory.heap) : Sound Closed (s.perform p c vs) := by
  have top := closed.top hs
  unfold perform
  split
  · exact sound_moveTo hs closed _
  · rename_i name value v vs
    simp only [Memory.write, Memory.bind, Memory.modifyTop, hs, ok_bind]
    refine sound_leave (f := f.bind name v) rfl ?_
    exact closed.change hs rfl rfl closed.objects (.refl _) (top.bind (live v List.mem_cons_self) _)
  · rename_i receiver name value r v vs
    obtain ⟨hr, live⟩ := List.forall_mem_cons.mp live
    refine (Value.sound_address hr _).bind fun a known => ?_
    simp only [Memory.write, bind_assoc, pure_eq_ok, ok_bind]
    refine (Heap.sound_write closed.objects known (live v List.mem_cons_self) name).bind ?_
    rintro h' ⟨objects, grows⟩
    refine sound_leave hs ?_
    exact closed.change hs rfl (by rw [hs]) objects grows (top.grow grows)
  · exact sound_choose hs closed _ _ _ _
  · exact sound_leave hs closed
  · exact sound_returnWith hs closed (by simp)
  · rename_i v vs
    exact sound_returnWith hs closed fun w hw => by
      cases hw
      exact live v List.mem_cons_self
  · simp

theorem sound_execute (refs : ∀ a, .ref a ∉ p.constants) (hs : s.memory.stack = f :: rest)
    (closed : s.Closed) (command : p.commandAt s.position = .ok (some c)) :
    Sound Closed (s.execute p c) := by
  cases hf : c.fault? with
  | some e =>
    rw [execute_of_fault hf]
    cases c with
    | assign target value => cases target <;> cases hf <;> simp
    | _ => cases hf
  | none =>
    rw [execute_eq hs hf]
    cases hr : c.readiness s.known with
    | due r => exact sound_fire hs closed hr (live_of_due refs hs closed command hr)
    | ready vs => exact sound_perform hs closed (live_of_ready refs hs closed command hr)

/-- A step keeps a state closed, and looks up no address at which there is no object. -/
theorem sound_transition (refs : ∀ a, .ref a ∉ p.constants) (hv : Valid p s) (closed : s.Closed)
    (status : s.status = .running) : Sound Closed (s.transition p) := by
  obtain ⟨f, rest, hs, ⟨command?, _, _, command, -⟩, -⟩ := hv.of_running status
  rw [transition, command, ok_bind]
  cases command? with
  | none => exact sound_returnWith hs closed (by simp)
  | some c => exact sound_execute refs hs closed command

/-! ## Runs -/

theorem sound_advance (refs : ∀ a, .ref a ∉ p.constants) (hv : Valid p s) (closed : s.Closed) :
    Sound Closed (s.advance p) := by
  cases h : s.advance p with
  | ok s' =>
    obtain ⟨status, next, path, hn, rfl⟩ := advance_eq_ok h
    have closed := (sound_transition refs hv closed status).of_ok hn
    exact ⟨closed.frames, closed.objects, closed.result⟩
  | error e =>
    cases hf : s.isFinished with
    | true =>
      cases h.symm.trans (advance_of_finished hf)
      simp
    | false =>
      have status := running_of_isFinished hf
      have sound := sound_transition refs hv closed status
      rwa [transition_of_advance status hv h] at sound

theorem start_closed {type method : String} (h : State.start p type method = .ok s) :
    s.Closed ∧ s.memory.heap.size = 1 := by
  obtain ⟨o, fresh, h⟩ := bind_eq_ok_iff.mp h
  obtain ⟨position, -, h⟩ := bind_eq_ok_iff.mp h
  cases h
  have empty : Heap.empty.Closed := by
    intro a o ho
    simp [Heap.get, Heap.empty] at ho
  have objects := Heap.closed_allocate empty fresh
  have known : (Heap.empty.allocate o).2.Allocated ⟨0⟩ :=
    Heap.allocated_iff_index_lt.mpr (by simp)
  have frame := @Frame.closed_enter _ (.empty ⟨0⟩) [] [] known .empty (by simp) method none type
  exact ⟨⟨List.forall_mem_singleton.mpr frame, objects, by simp [result?]⟩, Heap.size_allocate _ o⟩

theorem iterate_closed (refs : ∀ a, .ref a ∉ p.constants) {n : Nat} (hv : Valid p s)
    (closed : s.Closed) (h : s.iterate p n = .ok t) : t.Closed := by
  have step (u u' : State) : Valid p u ∧ u.Closed → u.advance p = .ok u' →
      Valid p u' ∧ u'.Closed := fun ⟨hv, closed⟩ hu =>
    ⟨advance_valid hv hu, (sound_advance refs hv closed).of_ok hu⟩
  exact (iterate_induction step ⟨hv, closed⟩ h).2

/-- The references of a reachable state, in a program that writes none. There is one object for the
start and one for each step that made one, at addresses one after the other. Every reference of the
state is to one of them, so that the next step does not fail because of an address. The objects
remain, and remain of their types, which the program defines. -/
theorem references_allocated {type method : String} {s₀ : State} {n : Nat}
    (refs : ∀ a, .ref a ∉ p.constants) (start : State.start p type method = .ok s₀)
    (run : s₀.iterate p n = .ok s) :
    (∀ a, s.memory.heap.Allocated a ↔
      ∃ i < 1 + s₀.creations p n, a.number = 0x1000 + 0x10 * i) ∧
    s.Closed ∧
    (∀ a, s.advance p ≠ .error (.unknownAddress a)) ∧
    ∀ m t, s.iterate p m = .ok t → ∀ a type, s.memory.heap.typeOf a = .ok type →
      t.memory.heap.typeOf a = .ok type ∧ ∃ d, p.table.type? type = some d := by
  have hv₀ := start_valid start
  have hv := iterate_valid hv₀ run
  obtain ⟨closed₀, size₀⟩ := start_closed start
  have closed := iterate_closed refs hv₀ closed₀ run
  have size := size_iterate hv₀ run
  refine ⟨fun a => ?_, closed, fun a h => ?_, fun m t ht a type known => ?_⟩
  · rw [Heap.allocated_iff_index_lt, size, size₀]
    simp only [Address.number, Address.first, Address.stride]
    exact ⟨fun lt => ⟨a.index, lt, rfl⟩, fun ⟨i, lt, hi⟩ => by omega⟩
  · have sound := sound_advance refs hv closed
    rw [h] at sound
    exact sound a rfl
  · obtain ⟨o, ho, rfl⟩ := Heap.typeOf_eq_ok_iff.mp known
    exact ⟨iterate_grows hv ht a _ known, hv.typed a o ho⟩

/-- After 18 steps there are two objects, that of the start and the counter. -/
theorem references_allocated_counter :
    ∃ s₀ s : State, State.start .counter "Main" "main" = .ok s₀ ∧
      s₀.iterate .counter 18 = .ok s ∧ s.isFinished = false ∧ s.Closed ∧
      ∀ a, s.memory.heap.Allocated a ↔ a.number = 0x1000 ∨ a.number = 0x1010 := by
  have run : ((start .counter "Main" "main").bind (·.iterate .counter 18)).toOption.map
      isFinished = some false := by decide +kernel
  have counted : (start .counter "Main" "main").toOption.map (·.creations .counter 18) =
      some 1 := by decide +kernel
  obtain ⟨s₀, s, hs₀, hs, unfinished⟩ := exists_of_view run
  rw [hs₀] at counted
  have counted : s₀.creations .counter 18 = 1 := Option.some.inj counted
  have refs : ∀ a, .ref a ∉ Program.counter.constants := by simp [show
    Program.counter.constants = [.int 1, .int 2] from rfl]
  obtain ⟨allocated, closed, -⟩ := references_allocated refs hs₀ hs
  refine ⟨s₀, s, hs₀, hs, unfinished, closed, fun a => (allocated a).trans ?_⟩
  rw [counted]
  constructor
  · rintro ⟨i, hi, ha⟩
    omega
  · rintro (ha | ha)
    · exact ⟨0, by omega, ha⟩
    · exact ⟨1, by omega, ha⟩

end State

end Microstep
