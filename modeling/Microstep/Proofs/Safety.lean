import Microstep.Proofs.Reduction
import Microstep.Proofs.Validity

/-!
# Errors of a run

A run ends in an error only through a fault of the program: a receiver that is no object, operands
that an operator does not take, a name that is not there, a result that does not fit. The machine
itself never goes wrong. It is never asked for a step that is not due, never leaves the program or
the stack, and the cursor can always be placed after a step.

* `Error.Raised`, `Error.Internal`: the errors of programs and those of the machine;
* `State.transition_error`: what a step can fail with;
* `State.refresh_of_valid`: the cursor can be placed;
* `State.advance_safe`: both for every state of a run.
-/

namespace Microstep

/-- The errors that programs raise while they run, apart from types that are not defined. -/
def Error.Raised : Error → Prop
  | .missingMethod .. | .argumentCountMismatch .. | .missingField .. | .nullDereference _
  | .unknownAddress _ | .undefinedVariable _ | .typeError .. | .integerOverflow _
  | .divisionByZero _ | .invalidAssignmentTarget _ => True
  | _ => False

/-- The errors of the machine: steps that are not due, positions that are none, a stack without
frames, and faults of the type table, which no program has. -/
def Error.Internal : Error → Prop
  | .protocolViolation _ | .malformedPosition .. | .noStackFrame | .inheritanceCycle _
  | .duplicateType _ | .duplicateMethod .. => True
  | _ => False

theorem Error.Raised.not_internal {e : Error} (raised : e.Raised) : ¬ e.Internal := by
  intro internal
  cases e <;> first | exact raised | exact internal

/-! ## Parts of a step -/

theorem Scope.read_error {scope : Scope} {name : String} {e : Error}
    (h : scope.read name = .error e) : e.Raised := by
  unfold read at h
  split at h <;> cases h
  trivial

theorem Value.address_error {v : Value} {source : Expr} {e : Error}
    (h : v.address source = .error e) : e.Raised := by
  cases v <;> cases h <;> trivial

theorem Operator.Undefined.raised {e : Error} (h : Undefined e) : e.Raised := by
  cases h <;> trivial

namespace Heap

variable {h : Heap} {a : Address} {name : String} {e : Error}

theorem get_error (he : h.get a = .error e) : e.Raised := by
  unfold get at he
  split at he <;> cases he
  trivial

theorem typeOf_error (he : h.typeOf a = .error e) : e.Raised := by
  obtain he | ⟨o, -, he⟩ := bind_eq_error_iff.mp he
  · exact get_error he
  · cases he

theorem read_error (he : h.read a name = .error e) : e.Raised := by
  obtain he | ⟨o, -, he⟩ := bind_eq_error_iff.mp he
  · exact get_error he
  · unfold Object.read at he
    split at he <;> cases he
    trivial

theorem write_error {v : Value} (he : h.write a name v = .error e) : e.Raised := by
  obtain he | ⟨o, -, he⟩ := bind_eq_error_iff.mp he
  · exact get_error he
  · obtain he | ⟨o', -, he⟩ := bind_eq_error_iff.mp he
    · unfold Object.write at he
      split at he <;> cases he
      trivial
    · cases he

theorem valueType_error {v : Value} (he : h.valueType v = .error e) : e.Raised := by
  cases v with
  | ref a =>
    obtain he | ⟨type, -, he⟩ := bind_eq_error_iff.mp he
    · exact typeOf_error he
    · cases he
  | _ => cases he

theorem mapM_valueType_error {vs : List Value} (he : vs.mapM h.valueType = .error e) :
    e.Raised := by
  induction vs with
  | nil => cases he
  | cons v vs ih =>
    rw [List.mapM_cons] at he
    obtain he | ⟨t, -, he⟩ := bind_eq_error_iff.mp he
    · exact valueType_error he
    · obtain he | ⟨ts, -, he⟩ := bind_eq_error_iff.mp he
      · exact ih he
      · cases he

theorem checkOperands_error {source : Expr} {op : Operator} {vs : List Value}
    (he : h.checkOperands source op vs = .error e) : e.Raised := by
  unfold checkOperands at he
  split at he
  · cases he
    trivial
  · obtain he | ⟨types, -, he⟩ := bind_eq_error_iff.mp he
    · exact mapM_valueType_error he
    · split at he <;> cases he
      trivial

theorem applyOperator_error {source : Expr} {op : Operator} {vs : List Value}
    (he : h.applyOperator source op vs = .error e) : e.Raised := by
  obtain he | ⟨_, hc, he⟩ := bind_eq_error_iff.mp he
  · exact checkOperands_error he
  · exact (Operator.reduce_error hc he).raised

end Heap

/-- A call on an object finds a method, or there is none. -/
theorem Program.dispatch_error {p : Program} {type method : String} {arity : Nat} {t : TypeDef}
    {e : Error} (ht : p.table.type? type = some t) (he : p.dispatch type method arity = .error e) :
    e.Raised := by
  obtain he | ⟨types, -, he⟩ := bind_eq_error_iff.mp he
  · obtain ⟨hno, -⟩ := ancestry_eq_error he
    rw [ht] at hno
    cases hno
  · dsimp only at he
    split at he
    · cases he
    · split at he <;> cases he <;> trivial

theorem Command.fault?_raised {c : Command} {e : Error} (h : c.fault? = some e) : e.Raised := by
  cases c with
  | assign target value => cases target <;> cases h <;> trivial
  | _ => cases h

/-! ## Nodes -/

/-- An error that the step of the node `source` can end with. -/
def Error.RaisedBy (p : Program) (source : Expr) (e : Error) : Prop :=
  e.Raised ∨ ∃ name, e = .unknownType name ∧ source = .new name ∧ p.table.type? name = none

namespace State

variable {p : Program} {s s' : State} {f : Frame} {rest : List Frame} {r : Redex} {c : Command}
  {e : Error}

theorem result_error {scope : Scope} {h : Heap} {source : Expr} {vs : List Value}
    (hconst : source.isConst = false) (hcall : source.isCall = false)
    (hlen : vs.length = source.children.length)
    (he : source.result p scope h vs = .error e) : e.RaisedBy p source := by
  cases source with
  | const v => cases hconst
  | call receiver method args => cases hcall
  | self => cases he
  | var name =>
    obtain he | ⟨v, -, he⟩ := bind_eq_error_iff.mp he
    · exact .inl (Scope.read_error he)
    · cases he
  | field receiver name =>
    cases vs with
    | nil => cases hlen
    | cons v vs =>
      obtain he | ⟨a, -, he⟩ := bind_eq_error_iff.mp he
      · exact .inl (Value.address_error he)
      · obtain he | ⟨v, -, he⟩ := bind_eq_error_iff.mp he
        · exact .inl (Heap.read_error he)
        · cases he
  | apply op operands =>
    obtain he | ⟨v, -, he⟩ := bind_eq_error_iff.mp he
    · exact .inl (Heap.applyOperator_error he)
    · cases he
  | new type =>
    obtain he | ⟨v, -, he⟩ := bind_eq_error_iff.mp he
    · obtain ⟨hno, rfl⟩ := Program.instantiate_eq_error he
      exact .inr ⟨type, rfl, rfl, hno⟩
    · cases he

theorem fire_error (hs : s.memory.stack = f :: rest) (typed : s.memory.heap.Typed p)
    (hr : c.readiness s.known = .due r) (he : s.fire p r = .error e) : e.RaisedBy p r.source := by
  obtain ⟨hconst, hlen⟩ := Command.operands_of_readiness hr
  cases hcall : r.source.isCall with
  | false =>
    rw [fire_value hs hconst hcall hlen] at he
    obtain he | ⟨v, -, he⟩ := bind_eq_error_iff.mp he
    · exact result_error hconst hcall hlen he
    · cases he
  | true =>
    obtain ⟨receiver, method, args, v, vs, source, values⟩ := call_of_isCall hcall hlen
    rw [fire_call source values] at he
    obtain he | ⟨a, -, he⟩ := bind_eq_error_iff.mp he
    · exact .inl (Value.address_error he)
    obtain he | ⟨type, htype, he⟩ := bind_eq_error_iff.mp he
    · exact .inl (Heap.typeOf_error he)
    obtain ⟨o, ho, htype⟩ := bind_eq_ok_iff.mp htype
    cases htype
    obtain ⟨t, ht⟩ := typed a o ho
    obtain he | ⟨found, -, he⟩ := bind_eq_error_iff.mp he
    · exact .inl (Program.dispatch_error ht he)
    · cases he

/-! ## Commands -/

theorem returnWith_of_waiting (hs : s.memory.stack = f :: rest) (waiting : Waiting p f.caller rest)
    (v : Option Value) : ∃ s', s.returnWith v = .ok s' := by
  simp only [returnWith, Memory.pop_eq hs, ok_bind]
  cases hc : f.caller with
  | none => exact ⟨_, rfl⟩
  | some site =>
    rw [hc] at waiting
    cases rest with
    | nil => exact waiting.elim
    | cons g below => exact ⟨_, rfl⟩

theorem leave_of_command (hs : s.memory.stack = f :: rest)
    (hc : p.commandAt s.position = .ok (some c)) : ∃ s', s.leave p = .ok s' := by
  obtain ⟨q, hq, -⟩ := Program.next_resolves hc
  exact ⟨_, bind_eq_ok_iff.mpr ⟨q, hq, moveTo_eq hs q⟩⟩

theorem enter_of_command (hs : s.memory.stack = f :: rest)
    (hc : p.commandAt s.position = .ok (some c)) (block : Nat) (branch : List Command) :
    ∃ s', s.enter p block branch = .ok s' := by
  unfold enter
  split
  · exact leave_of_command hs hc
  · exact ⟨_, moveTo_eq hs _⟩

theorem choose_error (hs : s.memory.stack = f :: rest)
    (hc : p.commandAt s.position = .ok (some c)) {condition : Expr} {thenBranch : List Command}
    {elseBranch : Option (List Command)} {v : Value}
    (he : s.choose p condition thenBranch elseBranch v = .error e) : e.Raised := by
  unfold choose at he
  split at he
  · cases he
    trivial
  · exact absurd he (ne_error_of_ok (enter_of_command hs hc 0 thenBranch))
  · rename_i elseBranch _
    exact absurd he (ne_error_of_ok (enter_of_command hs hc 1 elseBranch))
  · exact absurd he (ne_error_of_ok (leave_of_command hs hc))

/-- A command that has values for its operands takes effect, or the program is at fault. -/
theorem perform_error (hs : s.memory.stack = f :: rest) (waiting : Waiting p f.caller rest)
    (hc : p.commandAt s.position = .ok (some c)) (hf : c.fault? = none) {vs : List Value}
    (hlen : vs.length = c.operands.length) (he : s.perform p c vs = .error e) : e.Raised := by
  have goes (m : Memory) (top : Frame) (hm : m.stack = top :: rest) :
      leave p { s with memory := m } ≠ .error e :=
    ne_error_of_ok (leave_of_command (s := { s with memory := m }) hm hc)
  cases c with
  | entry => exact absurd he (ne_error_of_ok ⟨_, moveTo_eq hs _⟩)
  | assign target value =>
    cases target with
    | var name =>
      obtain ⟨v, rfl⟩ := single_of_length hlen
      simp only [perform, Memory.write, Memory.bind, Memory.modifyTop, hs, ok_bind] at he
      exact absurd he (goes ⟨s.memory.heap, f.bind name v :: rest⟩ _ rfl)
    | field receiver name =>
      obtain ⟨r, v, rfl⟩ := pair_of_length hlen
      obtain he | ⟨a, -, he⟩ := bind_eq_error_iff.mp he
      · exact Value.address_error he
      obtain he | ⟨m, hm, he⟩ := bind_eq_error_iff.mp he
      · obtain he | ⟨heap, -, he⟩ := bind_eq_error_iff.mp he
        · exact Heap.write_error he
        · cases he
      · obtain ⟨heap, -, hm⟩ := bind_eq_ok_iff.mp hm
        cases hm
        exact absurd he (goes ⟨heap, s.memory.stack⟩ _ hs)
    | _ => cases hf
  | cond condition thenBranch elseBranch =>
    obtain ⟨v, rfl⟩ := single_of_length hlen
    exact choose_error hs hc he
  | call receiver method args => exact absurd he (ne_error_of_ok (leave_of_command hs hc))
  | ret value =>
    cases value with
    | none => exact absurd he (ne_error_of_ok (returnWith_of_waiting hs waiting none))
    | some value =>
      obtain ⟨v, rfl⟩ := single_of_length hlen
      exact absurd he (ne_error_of_ok (returnWith_of_waiting hs waiting (some v)))

/-! ## Runs -/

/-- The node `r` of the current command is the one that comes next. -/
def Due (p : Program) (s : State) (r : Redex) : Prop :=
  ∃ c, p.commandAt s.position = .ok (some c) ∧ c.readiness s.known = .due r

/-- The node that comes next applies the operator, which takes these operands. -/
def Reduces (p : Program) (s : State) (op : Operator) (vs : List Value) : Prop :=
  ∃ path operands, s.Due p ⟨path, .apply op operands, vs⟩ ∧
    s.memory.heap.checkOperands (.apply op operands) op vs = .ok ()

/-- What a step can fail with. -/
theorem transition_error (status : s.status = .running) (hv : Valid p s)
    (he : s.transition p = .error e) :
    e.Raised ∨ ∃ path name, e = .unknownType name ∧ s.Due p ⟨path, .new name, []⟩ ∧
      p.table.type? name = none := by
  obtain ⟨f, rest, hs, ⟨command?, _, _, hc, -⟩, waiting, typed⟩ := hv.of_running status
  rw [transition, hc, ok_bind] at he
  cases command? with
  | none => exact absurd he (ne_error_of_ok (returnWith_of_waiting hs waiting none))
  | some c =>
    have he : s.execute p c = .error e := he
    cases hf : c.fault? with
    | some fault =>
      rw [execute_of_fault hf] at he
      cases he
      exact .inl (Command.fault?_raised hf)
    | none =>
      rw [execute_eq hs hf] at he
      cases hr : c.readiness s.known with
      | ready vs =>
        rw [hr] at he
        exact .inl (perform_error hs waiting hc hf (Expr.length_of_readinessEach hr) he)
      | due r =>
        rw [hr] at he
        obtain ⟨-, hlen⟩ := Command.operands_of_readiness hr
        obtain raised | ⟨name, rfl, hname, hno⟩ := fire_error hs typed hr he
        · exact .inl raised
        · obtain ⟨path, source, values⟩ := r
          obtain rfl : source = .new name := hname
          obtain rfl := List.eq_nil_of_length_eq_zero hlen
          exact .inr ⟨path, name, rfl, ⟨c, hc, hr⟩, hno⟩

/-- The cursor can be placed in every state of a run. -/
theorem refresh_of_valid (hv : Valid p s) : ∃ s', s.refresh p = .ok s' := by
  cases hv with
  | finished status =>
    refine ⟨{ s with cursor := [] }, ?_⟩
    simp only [refresh, command?, status]
    rfl
  | running status hs active =>
    obtain ⟨command?, _, _, hc, -⟩ := active
    have hcurrent : s.command? p = .ok command? := by simp only [State.command?, status, hc]
    rw [refresh, hcurrent, ok_bind]
    cases command? with
    | none => exact ⟨_, rfl⟩
    | some c => exact ⟨_, bind_eq_ok_iff.mpr ⟨_, cursorOf_eq hs c, rfl⟩⟩

theorem advance_of_transition (status : s.status = .running) (hv : Valid p s)
    (h : s.transition p = .ok s') :
    ∃ path, s.advance p = .ok { s' with cursor := path } := by
  obtain ⟨s'', hr⟩ := refresh_of_valid (transition_valid status hv h)
  obtain ⟨path, rfl⟩ := refresh_cases hr
  exact ⟨path, by simp [advance, status, h, hr]⟩

theorem transition_of_advance (status : s.status = .running) (hv : Valid p s)
    (he : s.advance p = .error e) : s.transition p = .error e := by
  cases h : s.transition p with
  | ok s' =>
    obtain ⟨path, ha⟩ := advance_of_transition status hv h
    rw [ha] at he
    cases he
  | error e' =>
    simp only [advance, status, h, error_bind, Except.error.injEq] at he
    rw [he]

theorem advance_of_finished (finished : s.isFinished = true) :
    s.advance p = .error .programFinished := by
  unfold isFinished at finished
  split at finished
  · cases finished
  · rename_i status
    simp [advance, status]

/-- What an advance can fail with: the run is over, or the step fails. -/
theorem advance_error (hv : Valid p s) (he : s.advance p = .error e) :
    (s.isFinished = true ∧ e = .programFinished) ∨ e.Raised ∨
      ∃ path name, e = .unknownType name ∧ s.Due p ⟨path, .new name, []⟩ ∧
        p.table.type? name = none := by
  cases hf : s.isFinished with
  | true =>
    rw [advance_of_finished hf] at he
    exact .inl ⟨rfl, (Except.error.inj he).symm⟩
  | false =>
    have status := running_of_isFinished hf
    exact .inr (transition_error status hv (transition_of_advance status hv he))

/-- No step of a run goes wrong. It fails with an error of the program or because the run is over,
with an unknown type only at a node that creates an object of that type. An operator is reduced only
on as many operands as it reads, and gives a value or has none. When the step itself succeeds, so
does the placing of the cursor. -/
theorem advance_safe {type method : String} {s₀ : State} {n : Nat}
    (start : State.start p type method = .ok s₀) (run : s₀.iterate p n = .ok s) :
    (∀ e, s.advance p = .error e → ¬ e.Internal) ∧
    (s.advance p = .error .programFinished ↔ s.isFinished = true) ∧
    (∀ name, s.advance p = .error (.unknownType name) →
      (∃ path, s.Due p ⟨path, .new name, []⟩) ∧ p.table.type? name = none) ∧
    (∀ op vs, s.Reduces p op vs →
      vs.length = op.arity ∧ ∀ e, op.reduce vs = .error e → Operator.Undefined e) ∧
    (s.isFinished = false → ∀ s', s.transition p = .ok s' → ∃ s'', s'.refresh p = .ok s'') := by
  have hv := iterate_valid (start_valid start) run
  refine ⟨fun e he => ?_, ⟨fun he => ?_, advance_of_finished⟩, fun name he => ?_,
    fun op vs ⟨path, operands, _, hc⟩ => ?_, fun unfinished s' h => ?_⟩
  · obtain ⟨-, rfl⟩ | raised | ⟨path, name, rfl, -⟩ := advance_error hv he
    · exact id
    · exact raised.not_internal
    · exact id
  · obtain ⟨finished, -⟩ | raised | ⟨path, name, h, -⟩ := advance_error hv he
    · exact finished
    · exact raised.elim
    · cases h
  · obtain ⟨-, h⟩ | raised | ⟨path, name, h, hdue, hno⟩ := advance_error hv he
    · cases h
    · exact raised.elim
    · cases h
      exact ⟨⟨path, hdue⟩, hno⟩
  · exact ⟨(Heap.checkOperands_eq_ok hc).1, fun e => Operator.reduce_error hc⟩
  · exact refresh_of_valid (transition_valid (running_of_isFinished unfinished) hv h)

/-- The run of the counter ends with 3 after 32 steps. -/
theorem advance_safe_counter :
    ∃ s₀ s : State, State.start .counter "Main" "main" = .ok s₀ ∧ s₀.iterate .counter 32 = .ok s ∧
      s.result? = some (.int 3) ∧ s.advance .counter = .error .programFinished ∧
      ¬ Error.Internal .programFinished := by
  have run : ((start .counter "Main" "main").bind (·.iterate .counter 32)).toOption.map
      (fun s => (s.isFinished, s.result?)) = some (true, some (.int 3)) := by decide +kernel
  obtain ⟨s₀, s, hs₀, hs, h⟩ := exists_of_view run
  obtain ⟨finished, result⟩ := Prod.mk.inj h
  obtain ⟨internal, ended, -⟩ := advance_safe hs₀ hs
  have he := ended.mpr finished
  exact ⟨s₀, s, hs₀, hs, result, he, internal _ he⟩

end State

end Microstep
