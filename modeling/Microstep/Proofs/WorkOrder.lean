import Microstep.Proofs.Readiness
import Microstep.WorkList

/-!
# Work lists and due nodes

When exactly the first nodes of a work list have values, the node that is due is the next one on the
list. An ancestor of a node never comes before it, so no node is listed twice.

* `Expr.workList_eq`: the work list of a node in terms of its children;
* `Command.pairwise_workList`: the order of a work list;
* `Command.path?_readiness`: the due node after a part of the work list.
-/

namespace Microstep

/-- Among the listed nodes, values are known for the first `k` and for no other. -/
def KnownUpTo (known : ExprPath → Option Value) (k : Nat) (nodes : List ExprPath) : Prop :=
  ∀ i q, nodes[i]? = some q → ((known q).isSome ↔ i < k)

section

variable {known : ExprPath → Option Value} {k : Nat} {xs ys : List ExprPath}

theorem KnownUpTo.left (h : KnownUpTo known k (xs ++ ys)) : KnownUpTo known k xs := by
  intro i q hi
  have hlt := (List.getElem?_eq_some_iff.mp hi).1
  exact h i q (by rwa [List.getElem?_append_left hlt])

theorem KnownUpTo.right (h : KnownUpTo known k (xs ++ ys)) :
    KnownUpTo known (k - xs.length) ys := by
  intro i q hi
  rw [h (xs.length + i) q (by rwa [List.getElem?_append_right (by omega), Nat.add_sub_cancel_left])]
  omega

end

namespace Expr

variable {known : ExprPath → Option Value} {k : Nat}

/-- The work list of a node in terms of its children. -/
theorem workList_eq (path : ExprPath) (e : Expr) :
    e.workList path =
      if e.isConst then [] else workListOf path 0 e.children ++ [path] := by
  cases e <;> simp [workList, workListOf, children, isConst]

theorem value?_of_not_const {path : ExprPath} {e : Expr} (h : ¬ e.isConst) :
    e.value? known path = known path := by
  cases e <;> simp_all [isConst, value?]

theorem readiness_of_const {path : ExprPath} {e : Expr} (h : e.isConst) :
    ∃ v, e.readiness known path = .ready v := by
  cases e <;> simp_all [isConst, readiness]

theorem path?_readinessOf {es : List Expr} {path : ExprPath}
    (ih : ∀ e ∈ es, ∀ path k, KnownUpTo known k (e.workList path) →
      (e.readiness known path).path? = (e.workList path)[k]?)
    (index : Nat) (h : KnownUpTo known k (workListOf path index es)) :
    (readinessOf known path index es).path? = (workListOf path index es)[k]? := by
  induction es generalizing index k with
  | nil => rfl
  | cons e rest ihr =>
    rw [workListOf] at h ⊢
    have he := ih e List.mem_cons_self _ _ h.left
    have hr := ihr (fun e he => ih e (List.mem_cons_of_mem _ he)) (index + 1) h.right
    rw [readinessOf]
    cases hx : e.readiness known (path ++ [index]) with
    | due r =>
      rw [hx] at he
      have hlt := (List.getElem?_eq_some_iff.mp he.symm).1
      rw [List.getElem?_append_left hlt, ← he]
      rfl
    | ready v =>
      rw [hx] at he
      have hle := List.getElem?_eq_none_iff.mp he.symm
      rw [List.getElem?_append_right hle, ← hr]
      cases readinessOf known path (index + 1) rest <;> rfl

/-- The node that is due when the first `k` nodes have values. -/
theorem path?_readiness {path : ExprPath} {e : Expr}
    (h : KnownUpTo known k (e.workList path)) :
    (e.readiness known path).path? = (e.workList path)[k]? := by
  induction e using Expr.childrenInduction generalizing path k with
  | node e ih =>
    by_cases hc : e.isConst
    · obtain ⟨v, hv⟩ : ∃ v, e.readiness known path = .ready v := readiness_of_const hc
      simp [hv, workList_eq, hc, Readiness.path?]
    · rw [workList_eq, if_neg hc] at h ⊢
      have hlast := h (workListOf path 0 e.children).length path (by simp)
      have hin := path?_readinessOf (fun c hc path k => ih c hc) 0 h.left
      cases hv : e.value? known path with
      | some v =>
        rw [value?_of_not_const hc] at hv
        have hk := hlast.mp (by simp [hv])
        rw [readiness_of_value (by rwa [value?_of_not_const hc])]
        exact (List.getElem?_eq_none (by rw [List.length_append]; exact hk)).symm
      | none =>
        rw [value?_of_not_const hc] at hv
        have hk : ¬ (workListOf path 0 e.children).length < k := fun hk => by
          simpa [hv] using hlast.mpr hk
        rw [readiness_of_none (by rwa [value?_of_not_const hc])]
        cases hx : readinessOf known path 0 e.children with
        | due r =>
          rw [hx] at hin
          have hlt := (List.getElem?_eq_some_iff.mp hin.symm).1
          rw [List.getElem?_append_left hlt, ← hin]
          rfl
        | ready vs =>
          rw [hx] at hin
          have hle := List.getElem?_eq_none_iff.mp hin.symm
          obtain rfl : k = (workListOf path 0 e.children).length := by omega
          simp [Readiness.path?]

/-! ## Order -/

theorem prefix_of_mem_workListOf {es : List Expr} {path q : ExprPath}
    (ih : ∀ e ∈ es, ∀ path q, q ∈ e.workList path → path <+: q) {index : Nat}
    (h : q ∈ workListOf path index es) : ∃ i, index ≤ i ∧ path ++ [i] <+: q := by
  induction es generalizing index with
  | nil => simp [workListOf] at h
  | cons e rest ihr =>
    rw [workListOf, List.mem_append] at h
    obtain h | h := h
    · exact ⟨index, Nat.le_refl _, ih e List.mem_cons_self _ _ h⟩
    · obtain ⟨i, hi, hq⟩ := ihr (fun e he => ih e (List.mem_cons_of_mem _ he)) h
      exact ⟨i, Nat.le_of_succ_le hi, hq⟩

/-- The nodes of an expression lie below its path. -/
theorem prefix_of_mem_workList {e : Expr} {path q : ExprPath} (h : q ∈ e.workList path) :
    path <+: q := by
  induction e using Expr.childrenInduction generalizing path q with
  | node e ih =>
    rw [workList_eq] at h
    split at h
    · cases h
    · obtain h | h := List.mem_append.mp h
      · obtain ⟨i, -, hq⟩ := prefix_of_mem_workListOf (fun c hc path q => ih c hc) h
        exact (List.prefix_append ..).trans hq
      · exact List.mem_singleton.mp h ▸ List.prefix_rfl

theorem below_of_mem_workListOf {es : List Expr} {path q : ExprPath} {index : Nat}
    (h : q ∈ workListOf path index es) : ∃ i, index ≤ i ∧ path ++ [i] <+: q :=
  prefix_of_mem_workListOf (fun _ _ _ _ => prefix_of_mem_workList) h

/-- Paths that lead to two different children have no path below them in common. -/
theorem not_prefix_of_child_ne {path q : ExprPath} {i j : Nat} (hij : i ≠ j)
    (hi : path ++ [i] <+: q) : ¬ path ++ [j] <+: q := by
  intro hj
  have h := (List.prefix_of_prefix_length_le hi hj (by simp)).eq_of_length (by simp)
  simp [hij] at h

theorem pairwise_workListOf {es : List Expr} {path : ExprPath}
    (ih : ∀ e ∈ es, ∀ path, (e.workList path).Pairwise fun a b => ¬ a <+: b) (index : Nat) :
    (workListOf path index es).Pairwise fun a b => ¬ a <+: b := by
  induction es generalizing index with
  | nil => exact .nil
  | cons e rest ihr =>
    rw [workListOf, List.pairwise_append]
    refine ⟨ih e List.mem_cons_self _, ihr (fun e he => ih e (List.mem_cons_of_mem _ he)) _, ?_⟩
    intro a ha b hb hab
    obtain ⟨j, hj, hb⟩ := below_of_mem_workListOf hb
    exact not_prefix_of_child_ne (by omega) ((prefix_of_mem_workList ha).trans hab) hb

/-- No node is listed before one that lies below it. -/
theorem pairwise_workList (e : Expr) (path : ExprPath) :
    (e.workList path).Pairwise fun a b => ¬ a <+: b := by
  induction e using Expr.childrenInduction generalizing path with
  | node e ih =>
    rw [workList_eq]
    split
    · exact .nil
    · rw [List.pairwise_append]
      refine ⟨pairwise_workListOf (fun c hc path => ih c hc path) 0,
        List.pairwise_singleton _ _, ?_⟩
      intro a ha b hb hab
      obtain ⟨i, -, hi⟩ := below_of_mem_workListOf ha
      rw [List.mem_singleton.mp hb] at hab
      have hlen := (hi.trans hab).length_le
      rw [List.length_append] at hlen
      exact absurd hlen (Nat.not_succ_le_self _)

end Expr

namespace Command

variable {known : ExprPath → Option Value} {k : Nat} {c : Command}

theorem path?_readinessEach {es : List (ExprPath × Expr)}
    (h : KnownUpTo known k (es.flatMap fun (path, e) => e.workList path)) :
    (Expr.readinessEach known es).path? =
      (es.flatMap fun (path, e) => e.workList path)[k]? := by
  induction es generalizing k with
  | nil => rfl
  | cons e rest ih =>
    obtain ⟨path, e⟩ := e
    rw [List.flatMap_cons] at h ⊢
    have he := Expr.path?_readiness h.left
    have hr := ih h.right
    rw [Expr.readinessEach]
    cases hx : e.readiness known path with
    | due r =>
      rw [hx] at he
      have hlt := (List.getElem?_eq_some_iff.mp he.symm).1
      rw [List.getElem?_append_left hlt, ← he]
      rfl
    | ready v =>
      rw [hx] at he
      have hle := List.getElem?_eq_none_iff.mp he.symm
      rw [List.getElem?_append_right hle, ← hr]
      cases Expr.readinessEach known rest <;> rfl

/-- The node of a command that is due when the first `k` nodes of its work list have values. -/
theorem path?_readiness (h : KnownUpTo known k c.workList) :
    (c.readiness known).path? = c.workList[k]? :=
  path?_readinessEach h

/-- No node is listed before one that lies below it. -/
theorem pairwise_workList (c : Command) : c.workList.Pairwise fun a b => ¬ a <+: b := by
  cases c with
  | assign target value =>
    cases target with
    | field receiver name =>
      simp only [workList, operands, Expr.targetOperands, List.cons_append, List.nil_append,
        List.flatMap_cons, List.flatMap_nil, List.append_nil, List.pairwise_append]
      refine ⟨Expr.pairwise_workList _ _, Expr.pairwise_workList _ _, fun a ha b hb hab => ?_⟩
      have h0 := (Expr.prefix_of_mem_workList ha).trans hab
      have h1 := Expr.prefix_of_mem_workList hb
      have := List.prefix_of_prefix_length_le h1 h0 (by simp)
      simp at this
    | _ => simpa [workList, operands, Expr.targetOperands] using Expr.pairwise_workList value [1]
  | cond condition thenBranch elseBranch =>
    simpa [workList, operands] using Expr.pairwise_workList condition [0]
  | call receiver method args =>
    simpa [workList, operands] using Expr.pairwise_workList (.call receiver method args) []
  | ret value =>
    cases value with
    | none => exact .nil
    | some value => simpa [workList, operands] using Expr.pairwise_workList value [0]
  | entry => exact .nil

theorem nodup_workList (c : Command) : c.workList.Nodup :=
  c.pairwise_workList.imp fun h heq => by subst heq; exact h List.prefix_rfl

end Command

end Microstep
