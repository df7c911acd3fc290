import Microstep.Proofs.Node

/-!
# What a step does

A step of a command either evaluates the node that is due among its operands or, when there is
none, lets the command take effect.

* `State.perform`, `State.execute_eq`: the step of a command, by what is due in it;
* `State.Performs`, `State.execute_cases`: what the step of a command can change;
* `State.cursorOf_eq`: the cursor stands on the node that is due.
-/

namespace Microstep

namespace Memory

variable {m : Memory} {f : Frame} {rest : List Frame}

theorem clear_eq (hm : m.stack = f :: rest) (position : Position) :
    m.clear position = .ok ⟨m.heap, f.clear position :: rest⟩ := by
  simp [clear, modifyTop, hm]

theorem pop_eq (hm : m.stack = f :: rest) : m.pop = .ok (f, ⟨m.heap, rest⟩) := by
  simp [pop, hm]

end Memory

/-- What keeps a command from ever taking effect: a target to which nothing can be assigned. -/
def Command.fault? : Command → Option Error
  | .assign (.var _) _ | .assign (.field ..) _ => none
  | .assign target _ => some (.invalidAssignmentTarget target.text)
  | _ => none

namespace State

variable {p : Program} {s s' : State} {f : Frame} {rest : List Frame} {r : Redex} {c : Command}

/-! ## Moving on -/

theorem moveTo_eq (hs : s.memory.stack = f :: rest) (q : Position) :
    s.moveTo q = .ok { s with
      memory := ⟨s.memory.heap, f.clear s.position :: rest⟩, position := q, cursor := [] } := by
  simp [moveTo, Memory.clear_eq hs]

/-- The state after the activation `f` of `s` has returned. -/
inductive Returns (s : State) (f : Frame) (rest : List Frame) (v : Option Value) : State → Prop
  | finish (caller : f.caller = none) :
    Returns s f rest v
      { s with memory := ⟨s.memory.heap, rest⟩, cursor := [], status := .finished v }
  | resume {site : Site} {g : Frame} {below : List Frame} (caller : f.caller = some site)
      (hrest : rest = g :: below) :
    Returns s f rest v
      { s with
        memory := ⟨s.memory.heap, g.record site (v.getD .null) :: below⟩
        position := site.position
        cursor := [] }

theorem returnWith_cases (hs : s.memory.stack = f :: rest) {v : Option Value}
    (h : s.returnWith v = .ok s') : Returns s f rest v s' := by
  simp only [returnWith, Memory.pop_eq hs, ok_bind] at h
  cases hc : f.caller with
  | none =>
    simp only [hc, pure_eq_ok, Except.ok.injEq] at h
    subst h
    exact .finish hc
  | some site =>
    simp only [hc] at h
    cases rest with
    | nil => simp [Memory.record, Memory.modifyTop] at h
    | cons g below =>
      rw [Memory.record_eq (m := ⟨s.memory.heap, g :: below⟩) rfl] at h
      simp only [ok_bind, pure_eq_ok, Except.ok.injEq] at h
      subst h
      exact .resume hc rfl

/-- Where the program can go from the command `c` at `position` within the activation. -/
inductive Goes (p : Program) (c : Command) (position : Position) : Position → Prop
  | entry (entry : c = .entry) : Goes p c position position.afterEntry
  | next {q : Position} (next : p.next position = .ok q) : Goes p c position q
  | branch {block : Nat} {branch : List Command} (branch? : c.branch? block = some branch)
      (inside : branch ≠ []) : Goes p c position (position.descend block)

/-- The state after the command `c` has taken effect in `s`. -/
inductive Performs (p : Program) (s : State) (f : Frame) (rest : List Frame) (c : Command) :
    State → Prop
  /-- The activation goes on elsewhere, perhaps after a write. -/
  | move {heap : Heap} {g : Frame} {q : Position}
      (write : heap = s.memory.heap ∨ ∃ a name v, s.memory.heap.write a name v = .ok heap)
      (bind : g = f ∨ ∃ name v, g = f.bind name v) (goes : Goes p c s.position q) :
    Performs p s f rest c
      { s with memory := ⟨heap, g.clear s.position :: rest⟩, position := q, cursor := [] }
  /-- The activation returns. -/
  | return {value : Option Expr} {v : Option Value} {s' : State} (command : c = .ret value)
      (returns : Returns s f rest v s') : Performs p s f rest c s'

theorem leave_cases (hs : s.memory.stack = f :: rest) (h : s.leave p = .ok s') :
    Performs p s f rest c s' := by
  simp only [leave, moveTo_eq hs, bind_eq_ok_iff, Except.ok.injEq] at h
  obtain ⟨q, hq, rfl⟩ := h
  exact .move (.inl rfl) (.inl rfl) (.next hq)

theorem enter_cases (hs : s.memory.stack = f :: rest) {block : Nat} {branch : List Command}
    (hb : c.branch? block = some branch) (h : s.enter p block branch = .ok s') :
    Performs p s f rest c s' := by
  unfold enter at h
  split at h
  · exact leave_cases hs h
  · rename_i inside
    rw [moveTo_eq hs] at h
    cases h
    exact .move (.inl rfl) (.inl rfl) (.branch hb (by simpa using inside))

theorem choose_cases (hs : s.memory.stack = f :: rest) {condition : Expr}
    {thenBranch : List Command} {elseBranch : Option (List Command)} {v : Value}
    (h : s.choose p condition thenBranch elseBranch v = .ok s') :
    Performs p s f rest (.cond condition thenBranch elseBranch) s' := by
  unfold choose at h
  split at h
  · cases h
  · exact enter_cases hs rfl h
  · exact enter_cases hs rfl h
  · exact leave_cases hs h

/-! ## Commands -/

/-- Goes on with a result, or evaluates the node that is due. -/
def onReady {α : Type} (p : Program) (s : State) (r : Readiness α) (k : α → Except Error State) :
    Except Error State :=
  match r with
  | .ready a => k a
  | .due redex => s.fire p redex

@[simp]
theorem onReady_ready {α : Type} (a : α) (k : α → Except Error State) :
    s.onReady p (.ready a) k = k a := rfl

@[simp]
theorem onReady_due {α : Type} (k : α → Except Error State) :
    s.onReady p (.due r) k = s.fire p r := rfl

theorem readiness_of_value? {known : ExprPath → Option Value} {path : ExprPath} {e : Expr} :
    e.value? known path = none → ∃ r, e.readiness known path = .due r := by
  intro h
  rw [Expr.readiness_of_none h]
  cases Expr.readinessOf known path 0 e.children with
  | ready vs => exact ⟨_, rfl⟩
  | due r => exact ⟨r, rfl⟩

theorem withOperand_eq (hs : s.memory.stack = f :: rest) (path : ExprPath) (e : Expr)
    (k : Value → Except Error State) :
    s.withOperand p path e k = s.onReady p (e.readiness s.known path) k := by
  rw [withOperand, evaluate_eq hs, ok_bind]
  cases hv : e.value? s.known path with
  | some v => rw [Expr.readiness_of_value hv]; rfl
  | none =>
    obtain ⟨r, hr⟩ := readiness_of_value? hv
    rw [hr]
    exact step_eq_fire hs hr

/-- What a command does once its operands have values. -/
def perform (p : Program) (s : State) (c : Command) (values : List Value) : Except Error State :=
  match c, values with
  | .entry, _ => s.moveTo s.position.afterEntry
  | .assign (.var name) _, v :: _ => do
    leave p { s with memory := ← s.memory.write (.var name) v }
  | .assign (.field receiver name) _, r :: v :: _ => do
    let a ← r.address (.field receiver name)
    leave p { s with memory := ← s.memory.write (.field a name) v }
  | .cond condition thenBranch elseBranch, v :: _ => s.choose p condition thenBranch elseBranch v
  | .call .., _ => s.leave p
  | .ret none, _ => s.returnWith none
  | .ret (some _), v :: _ => s.returnWith (some v)
  | c, _ => .error (.protocolViolation c.kind)

theorem execute_assign_var (hs : s.memory.stack = f :: rest) (name : String) (value : Expr) :
    s.execute p (.assign (.var name) value) =
      s.onReady p (value.readiness s.known [1]) fun v =>
        s.perform p (.assign (.var name) value) [v] := by
  simp [execute, targetReady, withOperand_eq hs, writeTarget, location, perform]

theorem execute_assign_field (hs : s.memory.stack = f :: rest) (receiver : Expr) (name : String)
    (value : Expr) :
    s.execute p (.assign (.field receiver name) value) =
      s.onReady p (receiver.readiness s.known [0, 0]) fun r =>
        s.onReady p (value.readiness s.known [1]) fun v =>
          s.perform p (.assign (.field receiver name) value) [r, v] := by
  have hr := evaluate_eq hs [0, 0] receiver
  simp only [execute, targetReady, List.cons_append, List.nil_append, hr, ok_bind, pure_eq_ok]
  cases hv : receiver.value? s.known [0, 0] with
  | none =>
    obtain ⟨r, hr⟩ := readiness_of_value? hv
    simp [hr, stepTarget, step_eq_fire hs hr]
  | some r =>
    simp only [Option.isSome_some, ↓reduceIte, withOperand_eq hs, Expr.readiness_of_value hv,
      onReady_ready]
    congr 1
    funext v
    simp only [writeTarget, location, List.cons_append, List.nil_append, hr, hv, ok_bind, perform]
    cases r.address (.field receiver name) <;> rfl

theorem execute_call (hs : s.memory.stack = f :: rest) (receiver : Expr) (method : String)
    (args : List Expr) :
    s.execute p (.call receiver method args) =
      s.onReady p ((Expr.call receiver method args).readiness s.known []) fun _ => s.leave p := by
  simp only [execute, pending_eq hs, ok_bind]
  cases hv : (Expr.call receiver method args).value? s.known [] with
  | some v =>
    have hk : s.known [] = some v := hv
    rw [Expr.readiness_of_value hv, hk]; rfl
  | none =>
    have hk : s.known [] = none := hv
    obtain ⟨r, hr⟩ := readiness_of_value? hv
    rw [hr, hk]
    refine Eq.trans ?_ (step_eq_fire hs hr)
    simp [stepCall, step, requireDue, evaluate_eq hs, hv, reduce]

theorem onReady_bind {α β : Type} (x : Readiness α) (g : α → Readiness β)
    (k : β → Except Error State) :
    s.onReady p (x >>= g) k = s.onReady p x fun a => s.onReady p (g a) k := by
  cases x <;> rfl

/-- The step of a command goes to the node that is due; when none is, the command takes effect. -/
theorem execute_eq (hs : s.memory.stack = f :: rest) (hc : c.fault? = none) :
    s.execute p c = s.onReady p (c.readiness s.known) (s.perform p c) := by
  cases c with
  | entry => rfl
  | assign target value =>
    cases target with
    | var name =>
      simp [execute_assign_var hs, Command.readiness, Command.operands, Expr.targetOperands,
        Expr.readinessEach, onReady_bind]
    | field receiver name =>
      simp [execute_assign_field hs, Command.readiness, Command.operands, Expr.targetOperands,
        Expr.readinessEach, onReady_bind]
    | _ => cases hc
  | cond condition thenBranch elseBranch =>
    simp [execute, withOperand_eq hs, Command.readiness, Command.operands, Expr.readinessEach,
      onReady_bind, perform]
  | call receiver method args =>
    simp [execute_call hs, Command.readiness, Command.operands, Expr.readinessEach, onReady_bind,
      perform]
  | ret value =>
    cases value with
    | none => rfl
    | some value =>
      simp [execute, withOperand_eq hs, Command.readiness, Command.operands, Expr.readinessEach,
        onReady_bind, perform]

theorem execute_of_fault {e : Error} (hc : c.fault? = some e) : s.execute p c = .error e := by
  cases c with
  | assign target value => cases target <;> cases hc <;> rfl
  | _ => cases hc

theorem perform_cases (hs : s.memory.stack = f :: rest) {values : List Value}
    (h : s.perform p c values = .ok s') : Performs p s f rest c s' := by
  unfold perform at h
  split at h
  · rw [moveTo_eq hs] at h
    cases h
    exact .move (.inl rfl) (.inl rfl) (.entry rfl)
  · rename_i name value v vs
    simp only [Memory.write, Memory.bind, Memory.modifyTop, hs, ok_bind, leave, bind_eq_ok_iff] at h
    obtain ⟨q, hq, h⟩ := h
    rw [moveTo_eq (f := f.bind name v) rfl] at h
    cases h
    exact .move (.inl rfl) (.inr ⟨name, v, rfl⟩) (.next hq)
  · rename_i receiver name value r v vs
    simp only [Memory.write, leave, bind_eq_ok_iff] at h
    obtain ⟨a, -, m, ⟨heap, hw, hm⟩, q, hq, h⟩ := h
    cases hm
    rw [moveTo_eq (s := { s with memory := ⟨heap, s.memory.stack⟩ }) hs] at h
    cases h
    exact .move (.inr ⟨a, name, v, hw⟩) (.inl rfl) (.next hq)
  · exact choose_cases hs h
  · exact leave_cases hs h
  · exact .return rfl (returnWith_cases hs h)
  · exact .return rfl (returnWith_cases hs h)
  · cases h

/-- A step of a command evaluates the node that is due, or there is none and the command takes
effect. -/
theorem execute_cases (hs : s.memory.stack = f :: rest) (h : s.execute p c = .ok s') :
    (∃ r, c.readiness s.known = .due r ∧ Fires p s f rest r s') ∨
      ∃ vs, c.readiness s.known = .ready vs ∧ Performs p s f rest c s' := by
  cases hc : c.fault? with
  | some e => rw [execute_of_fault hc] at h; cases h
  | none =>
    rw [execute_eq hs hc] at h
    cases hr : c.readiness s.known with
    | due r =>
      rw [hr] at h
      obtain ⟨hconst, hlen⟩ := Command.operands_of_readiness hr
      exact .inl ⟨r, rfl, fire_cases hs hconst hlen h⟩
    | ready vs =>
      rw [hr] at h
      exact .inr ⟨vs, rfl, perform_cases hs h⟩

/-! ## The cursor -/

theorem firstDueOf_eq (hs : s.memory.stack = f :: rest) (es : List (ExprPath × Expr)) :
    s.firstDueOf es = .ok (Expr.readinessEach s.known es).path? := by
  induction es with
  | nil => rfl
  | cons e es ih =>
    obtain ⟨path, e⟩ := e
    simp only [firstDueOf, firstDue_eq_path? hs, ok_bind, ih, Expr.readinessEach]
    cases e.readiness s.known path with
    | ready v => cases Expr.readinessEach s.known es <;> rfl
    | due r => rfl

/-- The cursor stands on the node that is due, if there is one. -/
theorem cursorOf_eq (hs : s.memory.stack = f :: rest) (c : Command) :
    s.cursorOf c = .ok ((c.readiness s.known).path?.getD []) := by
  simp [cursorOf, firstDueOf_eq hs, Command.readiness]

end State

end Microstep
