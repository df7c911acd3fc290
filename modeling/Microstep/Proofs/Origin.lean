import Microstep.Proofs.Readiness

/-!
# Where due nodes and their values come from

A due node is the one to which its path leads, and the values of its operands are those of its
children: of a constant the constant itself, of another child the value that is known for its path.

* `Expr.Draws`: values that are those of some children;
* `Command.node?_of_readiness`, `Command.draws_of_readiness`: the due node of a command;
* `Command.values_of_readiness`: the values with which a command takes effect.
-/

namespace Microstep

namespace Expr

variable {known : ExprPath → Option Value} {path : ExprPath} {index : Nat} {r : Redex}
  {v : Value} {e : Expr} {es : List Expr} {vs : List Value}

/-- The values are those of the nodes `es` at `path`, which are counted from `index`. -/
def Draws (known : ExprPath → Option Value) (path : ExprPath) (index : Nat) (es : List Expr)
    (vs : List Value) : Prop :=
  ∀ (i : Nat) (v : Value), vs[i]? = some v →
    ∃ e : Expr, es[i]? = some e ∧ e.value? known (path ++ [index + i]) = some v

theorem value?_of_ready (h : e.readiness known path = .ready v) : e.value? known path = some v := by
  cases hv : e.value? known path with
  | some w =>
    rw [readiness_of_value hv] at h
    cases h
    rfl
  | none =>
    rw [readiness_of_none hv, Readiness.bind_eq_ready_iff] at h
    obtain ⟨vs, -, h⟩ := h
    cases h

theorem draws_of_readinessOf (h : readinessOf known path index es = .ready vs) :
    Draws known path index es vs := by
  induction es generalizing index vs with
  | nil =>
    cases h
    intro i v hv
    simp at hv
  | cons e rest ih =>
    simp only [readinessOf, Readiness.bind_eq_ready_iff, Readiness.pure_eq,
      Readiness.ready.injEq] at h
    obtain ⟨w, hw, ws, hws, rfl⟩ := h
    intro i v hv
    cases i with
    | zero =>
      cases hv
      exact ⟨e, rfl, value?_of_ready hw⟩
    | succ i =>
      obtain ⟨c, hc, known⟩ := ih hws i v hv
      exact ⟨c, hc, by rwa [Nat.add_assoc, Nat.add_comm 1 i] at known⟩

/-- The due node among several is due in one of them. -/
theorem exists_of_readinessOf (h : readinessOf known path index es = .due r) :
    ∃ (i : Nat) (e : Expr), es[i]? = some e ∧
      e.readiness known (path ++ [index + i]) = .due r := by
  induction es generalizing index with
  | nil => cases h
  | cons e rest ih =>
    simp only [readinessOf, Readiness.bind_eq_due_iff] at h
    obtain h | ⟨v, -, h | ⟨vs, -, h⟩⟩ := h
    · exact ⟨0, e, rfl, h⟩
    · obtain ⟨i, c, hc, h⟩ := ih h
      exact ⟨i + 1, c, hc, by rwa [Nat.add_assoc, Nat.add_comm 1 i] at h⟩
    · cases h

/-- A due node of an expression stands where its path leads, and has the values of its children. -/
theorem node?_of_readiness (h : e.readiness known path = .due r) :
    (∃ below, r.path = path ++ below ∧ e.node? below = some r.source) ∧
      Draws known r.path 0 r.source.children r.values := by
  induction e using Expr.childrenInduction generalizing path r with
  | node e ih =>
    cases hv : e.value? known path with
    | some v => rw [readiness_of_value hv] at h; cases h
    | none =>
      rw [readiness_of_none hv, Readiness.bind_eq_due_iff] at h
      obtain h | ⟨vs, hvs, h⟩ := h
      · obtain ⟨i, c, hc, h⟩ := exists_of_readinessOf h
        obtain ⟨⟨below, hpath, hnode⟩, draws⟩ := ih c (List.mem_of_getElem? hc) h
        refine ⟨⟨i :: below, ?_, ?_⟩, draws⟩
        · rw [hpath, Nat.zero_add, List.append_assoc, List.singleton_append]
        · rw [node?, hc]
          exact hnode
      · cases h
        exact ⟨⟨[], (List.append_nil path).symm, rfl⟩, draws_of_readinessOf hvs⟩

end Expr

namespace Command

variable {known : ExprPath → Option Value} {path : ExprPath} {r : Redex} {c : Command} {e : Expr}

/-- The expressions of a command are found at their paths. -/
theorem node?_of_mem_operands (h : (path, e) ∈ c.operands) (below : ExprPath) :
    c.node? (path ++ below) = e.node? below := by
  cases c with
  | entry => cases h
  | assign target value =>
    rw [operands, List.mem_append] at h
    obtain h | h := h
    · cases target <;> simp_all [Expr.targetOperands, node?, Expr.node?, Expr.children]
    · simp only [List.mem_singleton, Prod.mk.injEq] at h
      obtain ⟨rfl, rfl⟩ := h
      rfl
  | cond condition thenBranch elseBranch =>
    simp only [operands, List.mem_singleton, Prod.mk.injEq] at h
    obtain ⟨rfl, rfl⟩ := h
    rfl
  | call receiver method args =>
    simp only [operands, List.mem_singleton, Prod.mk.injEq] at h
    obtain ⟨rfl, rfl⟩ := h
    rfl
  | ret value =>
    cases value with
    | none => cases h
    | some value =>
      simp only [operands, List.mem_singleton, Prod.mk.injEq] at h
      obtain ⟨rfl, rfl⟩ := h
      rfl

/-- The path of a due node leads to it. -/
theorem node?_of_readiness (h : c.readiness known = .due r) : c.node? r.path = some r.source := by
  obtain ⟨path, e, he, h⟩ := Expr.readinessEach_due h
  obtain ⟨⟨below, hpath, hnode⟩, -⟩ := Expr.node?_of_readiness h
  rw [hpath, node?_of_mem_operands he, hnode]

/-- A due node has the values of its children. -/
theorem draws_of_readiness (h : c.readiness known = .due r) :
    Expr.Draws known r.path 0 r.source.children r.values := by
  obtain ⟨path, e, -, h⟩ := Expr.readinessEach_due h
  exact (Expr.node?_of_readiness h).2

/-- A command takes effect with the values of its expressions. -/
theorem values_of_readiness {vs : List Value} {i : Nat} {v : Value}
    (h : c.readiness known = .ready vs) (hv : vs[i]? = some v) :
    ∃ path e, c.operands[i]? = some (path, e) ∧ e.value? known path = some v := by
  rw [readiness] at h
  generalize c.operands = es at h ⊢
  induction es generalizing i vs with
  | nil =>
    cases h
    simp at hv
  | cons e rest ih =>
    obtain ⟨path, e⟩ := e
    simp only [Expr.readinessEach, Readiness.bind_eq_ready_iff, Readiness.pure_eq,
      Readiness.ready.injEq] at h
    obtain ⟨w, hw, ws, hws, rfl⟩ := h
    cases i with
    | zero =>
      cases hv
      exact ⟨path, e, rfl, Expr.value?_of_ready hw⟩
    | succ i => exact ih hv hws

end Command

end Microstep
