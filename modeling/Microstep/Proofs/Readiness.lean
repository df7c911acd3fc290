import Microstep.Proofs.Bind
import Microstep.Redex
import Microstep.State.Execute

/-!
# Due nodes

The two searches through an expression, the one that steps it (`State.step`) and the one that
places the cursor (`State.firstDue`), stop at the same node: the one that `Expr.readiness` names.

* `Expr.readiness_eq`, `State.step_eq`, `State.firstDue_eq`: each search in terms of the children of
  a node, which is the shape that the proofs by `Expr.childrenInduction` follow;
* `State.step_eq_fire`, `State.firstDue_eq_path?`: the searches in terms of `Expr.readiness`;
* `Expr.readiness_due`, `Command.call_of_readiness`: where the due node lies.
-/

namespace Microstep

mutual

/-- Induction on the children of nodes. -/
theorem Expr.childrenInduction {motive : Expr → Prop}
    (node : ∀ e : Expr, (∀ c ∈ e.children, motive c) → motive e) : ∀ e : Expr, motive e
  | .const _ | .var _ | .self | .new _ => node _ fun _ h => absurd h List.not_mem_nil
  | .field receiver _ =>
    node _ (List.forall_mem_singleton.mpr (Expr.childrenInduction node receiver))
  | .apply _ operands => node _ (Expr.childrenInductionAll node operands)
  | .call receiver _ args =>
    node _ (List.forall_mem_cons.mpr
      ⟨Expr.childrenInduction node receiver, Expr.childrenInductionAll node args⟩)

theorem Expr.childrenInductionAll {motive : Expr → Prop}
    (node : ∀ e : Expr, (∀ c ∈ e.children, motive c) → motive e) :
    ∀ es : List Expr, ∀ e ∈ es, motive e
  | [] => fun _ h => absurd h List.not_mem_nil
  | e :: rest => List.forall_mem_cons.mpr
      ⟨Expr.childrenInduction node e, Expr.childrenInductionAll node rest⟩

end

/-- The value of a node that needs no step: that of a constant, or the one that is known. -/
def Expr.value? (known : ExprPath → Option Value) (path : ExprPath) : Expr → Option Value
  | .const v => some v
  | _ => known path

/-- The path of a node that is due. -/
def Readiness.path? {α : Type} : Readiness α → Option ExprPath
  | .ready _ => none
  | .due r => some r.path

namespace Readiness

variable {α β : Type}

theorem bind_eq_ready_iff {r : Readiness α} {f : α → Readiness β} {b : β} :
    (r >>= f) = .ready b ↔ ∃ a, r = .ready a ∧ f a = .ready b := by
  cases r <;> simp

theorem bind_eq_due_iff {r : Readiness α} {f : α → Readiness β} {redex : Redex} :
    (r >>= f) = .due redex ↔ r = .due redex ∨ ∃ a, r = .ready a ∧ f a = .due redex := by
  cases r <;> simp

end Readiness

namespace Expr

variable {known : ExprPath → Option Value} {path : ExprPath} {index : Nat} {r : Redex}

/-- The readiness of a node in terms of its children. -/
theorem readiness_eq (known : ExprPath → Option Value) (path : ExprPath) (e : Expr) :
    e.readiness known path =
      unlessKnown (e.value? known path) path e (readinessOf known path 0 e.children) := by
  cases e with
  | const v => rfl
  | var | self | new | apply => rfl
  | field receiver name =>
    simp only [readiness, readinessOf, value?, children]
    cases receiver.readiness known (path ++ [0]) <;> rfl
  | call receiver method args => rfl

theorem readiness_of_value {e : Expr} {v : Value} (h : e.value? known path = some v) :
    e.readiness known path = .ready v := by
  rw [readiness_eq, h]; rfl

theorem readiness_of_none {e : Expr} (h : e.value? known path = none) :
    e.readiness known path =
      (readinessOf known path 0 e.children >>= fun vs => .due ⟨path, e, vs⟩) := by
  rw [readiness_eq, h]; rfl

/-- What holds of every due node below the operands holds of the one that is found among them. -/
theorem readinessOf_due {motive : Redex → Prop} {es : List Expr}
    (operand : ∀ e ∈ es, ∀ i r, e.readiness known (path ++ [i]) = .due r → motive r)
    (h : readinessOf known path index es = .due r) : motive r := by
  induction es generalizing index with
  | nil => simp [readinessOf] at h
  | cons e rest ih =>
    simp only [readinessOf, Readiness.bind_eq_due_iff] at h
    obtain h | ⟨v, -, h | ⟨vs, -, h⟩⟩ := h
    · exact operand e List.mem_cons_self index r h
    · exact ih (fun e he => operand e (List.mem_cons_of_mem _ he)) h
    · simp at h

/-- A due node is unknown. It is the expression itself, or it lies below one of its children. -/
theorem readiness_due {e : Expr} (h : e.readiness known path = .due r) :
    known r.path = none ∧ ((r.path = path ∧ r.source = e) ∨ ∃ i, path ++ [i] <+: r.path) := by
  induction e using Expr.childrenInduction generalizing path r with
  | node e ih =>
    cases hv : e.value? known path with
    | some v => rw [readiness_of_value hv] at h; cases h
    | none =>
      rw [readiness_of_none hv, Readiness.bind_eq_due_iff] at h
      obtain h | ⟨vs, -, h⟩ := h
      · refine readinessOf_due (motive := fun r => known r.path = none ∧
          ((r.path = path ∧ r.source = e) ∨ ∃ i, path ++ [i] <+: r.path)) (fun c hc i r hr => ?_) h
        obtain ⟨hk, ⟨hp, -⟩ | ⟨j, hp⟩⟩ := ih c hc hr
        · exact ⟨hk, .inr ⟨i, hp ▸ List.prefix_rfl⟩⟩
        · exact ⟨hk, .inr ⟨i, (List.prefix_append ..).trans hp⟩⟩
      · cases h
        refine ⟨?_, .inl ⟨rfl, rfl⟩⟩
        cases e <;> simp_all [value?]

theorem length_of_readinessOf {es : List Expr} {vs : List Value}
    (h : readinessOf known path index es = .ready vs) : vs.length = es.length := by
  induction es generalizing index vs with
  | nil => cases h; rfl
  | cons e rest ih =>
    simp only [readinessOf, Readiness.bind_eq_ready_iff, Readiness.pure_eq,
      Readiness.ready.injEq] at h
    obtain ⟨v, -, vs, hvs, rfl⟩ := h
    simp [ih hvs]

/-- A due node is no constant, and all its operands have values. -/
theorem operands_of_readiness {e : Expr} (h : e.readiness known path = .due r) :
    r.source.isConst = false ∧ r.values.length = r.source.children.length := by
  induction e using Expr.childrenInduction generalizing path r with
  | node e ih =>
    cases hv : e.value? known path with
    | some v => rw [readiness_of_value hv] at h; cases h
    | none =>
      rw [readiness_of_none hv, Readiness.bind_eq_due_iff] at h
      obtain h | ⟨vs, hvs, h⟩ := h
      · exact readinessOf_due (motive := fun r =>
          r.source.isConst = false ∧ r.values.length = r.source.children.length)
          (fun c hc i r hr => ih c hc hr) h
      · cases h
        refine ⟨?_, length_of_readinessOf hvs⟩
        cases e <;> first | rfl | cases hv

theorem prefix_of_readiness {e : Expr} (h : e.readiness known path = .due r) : path <+: r.path := by
  obtain ⟨-, ⟨hp, -⟩ | ⟨i, hp⟩⟩ := readiness_due h
  · exact hp ▸ List.prefix_rfl
  · exact (List.prefix_append ..).trans hp

/-- The due node among several expressions is due in one of them. -/
theorem readinessEach_due {es : List (ExprPath × Expr)} (h : readinessEach known es = .due r) :
    ∃ path e, (path, e) ∈ es ∧ e.readiness known path = .due r := by
  induction es with
  | nil => simp [readinessEach] at h
  | cons e rest ih =>
    obtain ⟨path, e⟩ := e
    simp only [readinessEach, Readiness.bind_eq_due_iff] at h
    obtain h | ⟨v, -, h | ⟨vs, -, h⟩⟩ := h
    · exact ⟨path, e, List.mem_cons_self, h⟩
    · obtain ⟨path, e, he, h⟩ := ih h
      exact ⟨path, e, List.mem_cons_of_mem _ he, h⟩
    · simp at h

theorem length_of_readinessEach {es : List (ExprPath × Expr)} {vs : List Value}
    (h : readinessEach known es = .ready vs) : vs.length = es.length := by
  induction es generalizing vs with
  | nil => cases h; rfl
  | cons e rest ih =>
    simp only [readinessEach, Readiness.bind_eq_ready_iff, Readiness.pure_eq,
      Readiness.ready.injEq] at h
    obtain ⟨v, -, vs, hvs, rfl⟩ := h
    simp [ih hvs]

end Expr

namespace Command

variable {known : ExprPath → Option Value} {r : Redex} {c : Command}

theorem unknown_of_readiness (h : c.readiness known = .due r) : known r.path = none := by
  obtain ⟨path, e, -, h⟩ := Expr.readinessEach_due h
  exact (Expr.readiness_due h).1

theorem operands_of_readiness (h : c.readiness known = .due r) :
    r.source.isConst = false ∧ r.values.length = r.source.children.length := by
  obtain ⟨path, e, -, h⟩ := Expr.readinessEach_due h
  exact Expr.operands_of_readiness h

/-- Only a call command is a node itself. -/
theorem call_of_readiness (h : c.readiness known = .due r) (hp : r.path = []) :
    ∃ receiver method args, c = .call receiver method args ∧
      r.source = .call receiver method args := by
  obtain ⟨path, e, he, h⟩ := Expr.readinessEach_due h
  have hpath : path = [] := List.prefix_nil.mp (hp ▸ Expr.prefix_of_readiness h)
  cases c with
  | call receiver method args =>
    obtain rfl : e = .call receiver method args := by simpa [operands, hpath] using he
    obtain ⟨-, ⟨-, hs⟩ | ⟨i, hi⟩⟩ := Expr.readiness_due h
    · exact ⟨receiver, method, args, rfl, hs⟩
    · simp [hp] at hi
  | assign target value => cases target <;> simp_all [operands, Expr.targetOperands]
  | ret value => cases value <;> simp_all [operands]
  | _ => simp_all [operands]

end Command

namespace State

variable {p : Program} {s : State} {f : Frame} {rest : List Frame}

/-- The effect of a due node. -/
def fire (p : Program) (s : State) (r : Redex) : Except Error State :=
  s.reduce p r.path r.source r.values

theorem known_eq (hs : s.memory.stack = f :: rest) (path : ExprPath) :
    s.known path = f.pending[s.site path]? := by
  simp [known, hs]

/-- The running activation keeps no value for the node that is due. -/
theorem unknown_of_due {c : Command} {r : Redex} (hs : s.memory.stack = f :: rest)
    (due : c.readiness s.known = .due r) : f.pending[s.site r.path]? = none :=
  (known_eq hs r.path).symm.trans (Command.unknown_of_readiness due)

theorem pending_eq (hs : s.memory.stack = f :: rest) (path : ExprPath) :
    s.pending path = .ok (s.known path) := by
  simp [pending, Memory.pending, Memory.top, hs, known_eq hs]

theorem evaluate_eq (hs : s.memory.stack = f :: rest) (path : ExprPath) (e : Expr) :
    s.evaluate path e = .ok (e.value? s.known path) := by
  cases e <;> first | rfl | exact pending_eq hs path

/-- The step of a node in terms of its children. -/
theorem step_eq (hs : s.memory.stack = f :: rest) (path : ExprPath) (e : Expr) :
    s.step p path e = do
      s.requireDue path e
      match ← s.stepIn p path 0 e.children with
      | .ready vs => s.reduce p path e vs
      | .stepped next => return next := by
  cases e with
  | const | var | self | new | apply => rfl
  | field receiver name =>
    refine bind_congr fun _ => ?_
    simp only [Expr.children, stepIn, evaluate_eq hs, ok_bind]
    cases receiver.value? s.known (path ++ [0]) with
    | some v => rfl
    | none => cases s.step p (path ++ [0]) receiver <;> rfl
  | call receiver method args =>
    refine bind_congr fun _ => ?_
    simp only [Expr.children, stepIn, evaluate_eq hs, ok_bind]
    cases receiver.value? s.known (path ++ [0]) with
    | some v =>
      show _ = (s.stepIn p path 1 args >>= _) >>= _
      cases s.stepIn p path 1 args with
      | error e => rfl
      | ok found => cases found <;> rfl
    | none => cases s.step p (path ++ [0]) receiver <;> rfl

/-- The search for the cursor in terms of the children of a node. -/
theorem firstDue_eq (hs : s.memory.stack = f :: rest) (path : ExprPath) (e : Expr) :
    s.firstDue path e =
      match e.value? s.known path with
      | some _ => .ok none
      | none => do return some ((← s.firstDueIn path 0 e.children).getD path) := by
  cases e with
  | const v => rfl
  | var | self | new =>
    simp only [firstDue, pending_eq hs, Expr.value?, ok_bind]
    cases s.known path <;> rfl
  | field receiver name =>
    simp only [firstDue, pending_eq hs, Expr.value?, ok_bind, Expr.children, firstDueIn]
    cases s.known path with
    | some v => rfl
    | none =>
      cases s.firstDue (path ++ [0]) receiver with
      | error e => rfl
      | ok found => cases found <;> rfl
  | apply op operands =>
    simp only [firstDue, pending_eq hs, Expr.value?, ok_bind, Expr.children]
    cases s.known path <;> rfl
  | call receiver method args =>
    simp only [firstDue, pending_eq hs, Expr.value?, ok_bind, Expr.children, firstDueIn]
    cases s.known path with
    | some v => rfl
    | none =>
      cases s.firstDue (path ++ [0]) receiver with
      | error e => rfl
      | ok found => cases found <;> rfl

/-- The step of operands goes to the node that their readiness names. -/
theorem stepIn_eq (hs : s.memory.stack = f :: rest) {es : List Expr} (path : ExprPath)
    (ih : ∀ e ∈ es, ∀ (path : ExprPath) (r : Redex), e.readiness s.known path = .due r →
      s.step p path e = s.fire p r) (index : Nat) :
    s.stepIn p path index es =
      match Expr.readinessOf s.known path index es with
      | .ready vs => .ok (.ready vs)
      | .due r => do return .stepped (← s.fire p r) := by
  induction es generalizing index with
  | nil => rfl
  | cons e rest ihr =>
    have tail := ihr (fun e he => ih e (List.mem_cons_of_mem _ he)) (index + 1)
    simp only [stepIn, evaluate_eq hs, ok_bind, tail, Expr.readinessOf]
    cases hv : e.value? s.known (path ++ [index]) with
    | some v =>
      rw [Expr.readiness_of_value hv, Readiness.ready_bind]
      cases Expr.readinessOf s.known path (index + 1) rest with
      | ready vs => rfl
      | due r => cases hf : s.fire p r <;> simp [hf]
    | none =>
      cases hr : e.readiness s.known (path ++ [index]) with
      | ready v =>
        rw [Expr.readiness_of_none hv, Readiness.bind_eq_ready_iff] at hr
        obtain ⟨vs, -, hr⟩ := hr
        cases hr
      | due r => rw [ih e List.mem_cons_self _ r hr]; rfl

/-- A step goes to the node that is due. -/
theorem step_eq_fire (hs : s.memory.stack = f :: rest) {path : ExprPath} {e : Expr} {r : Redex}
    (h : e.readiness s.known path = .due r) : s.step p path e = s.fire p r := by
  induction e using Expr.childrenInduction generalizing path r with
  | node e ih =>
    cases hv : e.value? s.known path with
    | some v => rw [Expr.readiness_of_value hv] at h; cases h
    | none =>
      rw [step_eq hs, requireDue, evaluate_eq hs, hv, stepIn_eq hs path fun c hc path r => ih c hc]
      rw [Expr.readiness_of_none hv] at h
      cases hr : Expr.readinessOf s.known path 0 e.children with
      | ready vs =>
        rw [hr] at h
        cases h
        rfl
      | due r' =>
        rw [hr] at h
        cases h
        show (s.fire p r >>= _) >>= _ = _
        cases s.fire p r <;> rfl

theorem firstDueIn_eq {es : List Expr} (path : ExprPath)
    (ih : ∀ e ∈ es, ∀ path : ExprPath,
      s.firstDue path e = .ok (e.readiness s.known path).path?) (index : Nat) :
    s.firstDueIn path index es = .ok (Expr.readinessOf s.known path index es).path? := by
  induction es generalizing index with
  | nil => rfl
  | cons e rest ihr =>
    have tail := ihr (fun e he => ih e (List.mem_cons_of_mem _ he)) (index + 1)
    simp only [firstDueIn, ih e List.mem_cons_self, ok_bind, tail, Expr.readinessOf]
    cases e.readiness s.known (path ++ [index]) with
    | ready v => cases Expr.readinessOf s.known path (index + 1) rest <;> rfl
    | due r => rfl

/-- The search for the cursor finds the node that is due. -/
theorem firstDue_eq_path? (hs : s.memory.stack = f :: rest) (path : ExprPath) (e : Expr) :
    s.firstDue path e = .ok (e.readiness s.known path).path? := by
  induction e using Expr.childrenInduction generalizing path with
  | node e ih =>
    rw [firstDue_eq hs]
    cases hv : e.value? s.known path with
    | some v => rw [Expr.readiness_of_value hv]; rfl
    | none =>
      rw [Expr.readiness_of_none hv, firstDueIn_eq path fun c hc path => ih c hc path]
      cases Expr.readinessOf s.known path 0 e.children <;> rfl

end State

end Microstep
