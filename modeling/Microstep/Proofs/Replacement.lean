import Microstep.Proofs.Safety
import Microstep.TypeTable.Explicit

/-!
# Programs that can stand in for each other

A run asks its program for new objects, for the methods that calls find, for the command at a
position and for the position behind it. Two programs that answer these questions alike have the
same runs. A run cannot tell a command from its explicit form, nor the end of a body from a return,
so the answers may differ there. Errors of the one program may be excused: where it fails with
such an error, nothing is asked of the other one.

* `SameUnless`: equal results, up to excused errors;
* `State.execute_explicit`: a command and its explicit form have the same step;
* `Program.Replaces`: what a program has to share with the one that it stands in for;
* `State.advance_same`, `State.start_same`, `State.iterate_same`: the runs of the two programs.
-/

namespace Microstep

/-! ## Equal results -/

/-- The second result is the first one, unless that is an error which is excused. -/
def SameUnless {α : Type} (excused : Error → Prop) (x y : Except Error α) : Prop :=
  y = x ∨ ∃ e, x = .error e ∧ excused e

namespace SameUnless

variable {α β : Type} {excused : Error → Prop} {x y : Except Error α} {a : α} {e : Error}

theorem refl (x : Except Error α) : SameUnless excused x x := .inl rfl

theorem excuse (h : excused e) : SameUnless excused (.error e) y := .inr ⟨e, rfl, h⟩

/-- Sequences of steps with the same results have the same result. -/
theorem bind {f g : α → Except Error β} (h : SameUnless excused x y)
    (next : ∀ a, x = .ok a → SameUnless excused (f a) (g a)) :
    SameUnless excused (x >>= f) (y >>= g) := by
  obtain rfl | ⟨e, rfl, he⟩ := h
  · cases y with
    | error e => exact .refl _
    | ok a => exact next a rfl
  · exact .excuse he

theorem map (h : SameUnless excused x y) (f : α → β) :
    SameUnless excused (x.map f) (y.map f) := by
  obtain rfl | ⟨e, rfl, he⟩ := h
  · exact .refl _
  · exact .excuse he

theorem of_ok (h : SameUnless excused x y) (hx : x = .ok a) : y = .ok a := by
  obtain rfl | ⟨e, he, -⟩ := h
  · exact hx
  · cases hx.symm.trans he

theorem of_error (h : SameUnless excused x y) (hx : x = .error e) (he : ¬ excused e) :
    y = .error e := by
  obtain rfl | ⟨e', he', excuse⟩ := h
  · exact hx
  · cases hx.symm.trans he'
    exact absurd excuse he

/-- Where nothing is excused the results are equal. -/
theorem eq (h : SameUnless excused x y) (strict : ∀ e, ¬ excused e) : y = x := by
  obtain rfl | ⟨e, -, excuse⟩ := h
  · rfl
  · exact absurd excuse (strict e)

end SameUnless

/-! ## Explicit commands -/

theorem Command.explicitAll_eq_map (block : List Command) :
    explicitAll block = block.map explicit := by
  induction block with
  | nil => rfl
  | cons c rest ih => rw [explicitAll, ih, List.map_cons]

@[simp]
theorem Command.isEmpty_explicitAll (block : List Command) :
    (explicitAll block).isEmpty = block.isEmpty := by
  cases block <;> rfl

theorem Command.operands_explicit (c : Command) : c.explicit.operands = c.operands := by
  cases c <;> rfl

namespace State

variable {p : Program} {s : State}

theorem enter_explicit (block : Nat) (branch : List Command) :
    s.enter p block (Command.explicitAll branch) = s.enter p block branch := by
  simp [enter]

/-- A branch that was left out and one that is empty both lead past the command. -/
theorem choose_explicit (condition : Expr) (thenBranch : List Command)
    (elseBranch : Option (List Command)) (v : Value) :
    s.choose p condition (Command.explicitAll thenBranch)
        (some (Command.explicitElse elseBranch)) v =
      s.choose p condition thenBranch elseBranch v := by
  unfold choose
  cases v.bool? with
  | none => rfl
  | some holds =>
    cases holds with
    | true => exact enter_explicit 0 thenBranch
    | false =>
      cases elseBranch with
      | none => rfl
      | some branch => exact enter_explicit 1 branch

/-- A command and its explicit form have the same step. -/
theorem execute_explicit (c : Command) : s.execute p c.explicit = s.execute p c := by
  cases c with
  | cond condition thenBranch elseBranch =>
    rw [Command.explicit, execute, execute]
    congr 1
    funext v
    exact choose_explicit condition thenBranch elseBranch v
  | _ => rw [Command.explicit]

theorem cursorOf_explicit (c : Command) : s.cursorOf c.explicit = s.cursorOf c := by
  rw [cursorOf, cursorOf, Command.operands_explicit]

/-- The end of a body is a return without a value. -/
theorem transition_eq :
    s.transition p = p.commandAt s.position >>= fun c? => s.execute p (c?.getD (.ret none)) := by
  refine congrArg _ (funext fun c? => ?_)
  cases c? <;> rfl

theorem refresh_eq (status : s.status = .running) :
    s.refresh p = p.commandAt s.position >>= fun c? =>
      s.cursorOf (c?.getD (.ret none)) >>= fun path => .ok { s with cursor := path } := by
  simp only [refresh, command?, status]
  refine congrArg _ (funext fun c? => ?_)
  cases c? <;> rfl

end State

/-! ## Replaced programs -/

/-- A body found by a call, as a run sees it: the type that declares it, and the parameters. -/
def Implementation.head (found : Implementation) : String × List Declaration :=
  (found.owner.name, found.method.params)

theorem Program.entry_eq_head (p : Program) (type method : String) (arity : Nat) :
    p.entry type method arity =
      (p.dispatch type method arity).map Implementation.head >>= fun (owner, _) =>
        .ok (.entry owner method) := by
  rw [entry]
  cases p.dispatch type method arity <;> rfl

/-- What a run asks of `p` gets the same answer from `q`, except for errors that are excused: the
object of a type, the method that a call finds, the command at a position, or the return at the end
of a body, and the position behind it. The command may be in its explicit form. -/
structure Program.Replaces (excused : Error → Prop) (p q : Program) : Prop where
  instantiate : ∀ type, SameUnless excused (p.instantiate type) (q.instantiate type)
  dispatch : ∀ type method arity, SameUnless excused
    ((p.dispatch type method arity).map Implementation.head)
    ((q.dispatch type method arity).map Implementation.head)
  command : ∀ position c?, p.commandAt position = .ok c? →
    ∃ c'?, q.commandAt position = .ok c'? ∧
      (c'?.getD (.ret none) = c?.getD (.ret none) ∨
        c'?.getD (.ret none) = (c?.getD (.ret none)).explicit)
  next : ∀ position c, p.commandAt position = .ok (some c) → q.next position = p.next position

namespace State

variable {excused : Error → Prop} {p q : Program} {s : State} {f : Frame} {rest : List Frame}
  {r : Redex} {vs : List Value}

/-! ## Steps -/

theorem result_same (replaces : p.Replaces excused q) (scope : Scope) (h : Heap) (e : Expr)
    (vs : List Value) : SameUnless excused (e.result p scope h vs) (e.result q scope h vs) := by
  cases e with
  | new type => exact (replaces.instantiate type).bind fun o _ => .refl _
  | field receiver name => cases vs <;> exact .refl _
  | _ => exact .refl _

/-- Of the method that a call finds only the head matters. -/
theorem fire_call_head {receiver : Expr} {method : String} {args : List Expr} {v : Value}
    (source : r.source = .call receiver method args) (values : r.values = v :: vs) :
    s.fire p r = do
      let a ← v.address r.source
      let type ← s.memory.heap.typeOf a
      let (owner, params) ← (p.dispatch type method vs.length).map Implementation.head
      return { s with
        memory := s.memory.push (.enter ((Scope.empty a).bindAll params vs) method
          (some (s.site r.path)) type)
        position := .entry owner method
        cursor := [] } := by
  rw [fire_call source values]
  refine congrArg _ (funext fun a => congrArg _ (funext fun type => ?_))
  cases p.dispatch type method vs.length <;> rfl

/-- A due node has the same step in both programs. -/
theorem fire_same (replaces : p.Replaces excused q) (hs : s.memory.stack = f :: rest)
    (hconst : r.source.isConst = false) (hlen : r.values.length = r.source.children.length) :
    SameUnless excused (s.fire p r) (s.fire q r) := by
  cases hcall : r.source.isCall with
  | false =>
    rw [fire_value hs hconst hcall hlen, fire_value hs hconst hcall hlen]
    exact (result_same replaces f.toScope s.memory.heap r.source r.values).bind fun _ _ => .refl _
  | true =>
    obtain ⟨receiver, method, args, v, vs, source, values⟩ := call_of_isCall hcall hlen
    rw [fire_call_head source values, fire_call_head source values]
    refine .bind (.refl _) fun a _ => .bind (.refl _) fun type _ => ?_
    exact (replaces.dispatch type method vs.length).bind fun _ _ => .refl _

theorem leave_same (next : q.next s.position = p.next s.position) : s.leave q = s.leave p := by
  rw [leave, leave, next]

theorem choose_same (next : q.next s.position = p.next s.position) (condition : Expr)
    (thenBranch : List Command) (elseBranch : Option (List Command)) (v : Value) :
    s.choose q condition thenBranch elseBranch v =
      s.choose p condition thenBranch elseBranch v := by
  simp only [choose, enter, leave_same next]

/-- A command has the same effect in programs that go on at the same position. -/
theorem perform_same (next : q.next s.position = p.next s.position) (c : Command)
    (vs : List Value) : s.perform q c vs = s.perform p c vs := by
  have leave_same (m : Memory) : leave q { s with memory := m } = leave p { s with memory := m } :=
    State.leave_same (s := { s with memory := m }) next
  unfold perform
  split <;> simp only [leave_same, choose_same next]

/-- A command has the same step in both programs. -/
theorem execute_same (replaces : p.Replaces excused q) (hs : s.memory.stack = f :: rest)
    (next : q.next s.position = p.next s.position) (c : Command) :
    SameUnless excused (s.execute p c) (s.execute q c) := by
  cases hf : c.fault? with
  | some e =>
    rw [execute_of_fault hf, execute_of_fault hf]
    exact .refl _
  | none =>
    rw [execute_eq hs hf, execute_eq hs hf]
    cases hr : c.readiness s.known with
    | ready vs => exact .inl (perform_same next c vs)
    | due r =>
      obtain ⟨hconst, hlen⟩ := Command.operands_of_readiness hr
      exact fire_same replaces hs hconst hlen

theorem transition_same (replaces : p.Replaces excused q) (status : s.status = .running)
    (hv : Valid p s) : SameUnless excused (s.transition p) (s.transition q) := by
  obtain ⟨f, rest, hs, ⟨c?, _, _, hc, -⟩, -, -⟩ := hv.of_running status
  obtain ⟨c'?, hc', same⟩ := replaces.command s.position c? hc
  -- Whatever the form of the command in `q`, within `q` it has the step of the command in `p`.
  have executed : s.execute q (c'?.getD (.ret none)) = s.execute q (c?.getD (.ret none)) := by
    obtain same | explicit := same
    · rw [same]
    · rw [explicit, execute_explicit]
  rw [transition_eq, transition_eq, hc, hc', ok_bind, ok_bind, executed]
  cases c? with
  | none => exact .refl _
  | some c => exact execute_same replaces hs (replaces.next s.position c hc) c

/-- The cursor is placed on the same node. -/
theorem refresh_same (replaces : p.Replaces excused q) (hv : Valid p s) :
    s.refresh q = s.refresh p := by
  cases hv with
  | finished status => simp only [refresh, command?, status]
  | running status hs active =>
    obtain ⟨c?, _, _, hc, -⟩ := active
    obtain ⟨c'?, hc', same⟩ := replaces.command s.position c? hc
    have placed : s.cursorOf (c'?.getD (.ret none)) = s.cursorOf (c?.getD (.ret none)) := by
      obtain same | explicit := same
      · rw [same]
      · rw [explicit, cursorOf_explicit]
    rw [refresh_eq status, refresh_eq status, hc, hc', ok_bind, ok_bind, placed]

/-! ## Runs -/

/-- A step of a run is the same in both programs. -/
theorem advance_same (replaces : p.Replaces excused q) (hv : Valid p s) :
    SameUnless excused (s.advance p) (s.advance q) := by
  rw [advance, advance]
  split
  · exact .refl _
  · rename_i status
    refine (transition_same replaces status hv).bind fun next hn => ?_
    exact .inl (refresh_same replaces (transition_valid status hv hn))

/-- Runs from one state are the same in both programs. -/
theorem iterate_same (replaces : p.Replaces excused q) (hv : Valid p s) (n : Nat) :
    SameUnless excused (s.iterate p n) (s.iterate q n) := by
  induction n generalizing s with
  | zero => exact .refl _
  | succ n ih => exact (advance_same replaces hv).bind fun next hn => ih (advance_valid hv hn)

/-- Runs start in the same state. -/
theorem start_same (replaces : p.Replaces excused q) (type method : String) :
    SameUnless excused (State.start p type method) (State.start q type method) := by
  have entry : SameUnless excused (p.entry type method 0) (q.entry type method 0) := by
    rw [Program.entry_eq_head, Program.entry_eq_head]
    exact (replaces.dispatch type method 0).bind fun _ _ => .refl _
  exact (replaces.instantiate type).bind fun o _ => entry.bind fun position _ => .refl _

end State

end Microstep
