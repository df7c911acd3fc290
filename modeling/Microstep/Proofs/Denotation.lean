import Mathlib.Logic.Function.Basic
import Microstep.Evaluation.Reach
import Microstep.Proofs.Focus

/-!
# Due nodes and evaluation

An expression without calls is evaluated by one due node after the other, and the search for due
nodes gives every node the value that the evaluation by recursion gives it. This is about the search
alone: what is known of nodes, and the heap.

A search is led by its leftmost part that is not settled, so the nodes that are evaluated in a child
are those that are evaluated in its parent (`Reductions.lift`), once the children to the left of it
have values.

* `Reductions`, `Stuck`: due nodes evaluated one after the other, up to one that fails;
* `Expr.reduces`: an evaluation that succeeds goes through the work list;
* `Expr.sticks`: one that fails goes through it up to the node that fails.
-/

namespace Microstep

variable {α β : Type} {p : Program} {call : CallRule} {scope : Scope} {heap heap₁ heap' : Heap}
  {known known₁ known' : ExprPath → Option Value} {paths paths' : List ExprPath} {error : Error}

namespace Outcome

theorem bind_eq_done_iff {x : Outcome α} {f : α → Outcome β} {b : β} :
    (x >>= f) = .done b ↔ ∃ a, x = .done a ∧ f a = .done b := by
  cases x <;> simp

theorem bind_eq_failed_iff {x : Outcome α} {f : α → Outcome β} :
    (x >>= f) = .failed error ↔ x = .failed error ∨ ∃ a, x = .done a ∧ f a = .failed error := by
  cases x <;> simp

theorem bind_eq_unfinished_iff {x : Outcome α} {f : α → Outcome β} :
    (x >>= f) = .unfinished ↔ x = .unfinished ∨ ∃ a, x = .done a ∧ f a = .unfinished := by
  cases x <;> simp

theorem ofExcept_eq_done_iff {x : Except Error α} {a : α} : ofExcept x = .done a ↔ x = .ok a := by
  cases x <;> simp

theorem ofExcept_eq_failed_iff {x : Except Error α} :
    ofExcept x = .failed error ↔ x = .error error := by
  cases x <;> simp

theorem ofExcept_ne_unfinished (x : Except Error α) : ofExcept x ≠ .unfinished := by
  cases x <;> simp

end Outcome

/-- The nodes at `paths` are evaluated one after the other. Each is the one that `search` finds due,
none is a call, and the value of each is known from then on. -/
inductive Reductions (p : Program) (scope : Scope)
    (search : (ExprPath → Option Value) → Readiness α) :
    Heap → (ExprPath → Option Value) → List ExprPath → Heap → (ExprPath → Option Value) → Prop
  | nil {heap : Heap} {known : ExprPath → Option Value} :
    Reductions p scope search heap known [] heap known
  | cons {heap heap₁ heap' : Heap} {known known' : ExprPath → Option Value} {r : Redex} {v : Value}
      {paths : List ExprPath} (due : search known = .due r) (plain : r.source.isCall = false)
      (value : r.source.result p scope heap r.values = .ok (v, heap₁))
      (later : Reductions p scope search heap₁ (Function.update known r.path (some v)) paths heap'
        known') :
    Reductions p scope search heap known (r.path :: paths) heap' known'

/-- The nodes at `paths` are evaluated one after the other, and then the one that is due fails. -/
def Stuck (p : Program) (scope : Scope) (search : (ExprPath → Option Value) → Readiness α)
    (heap : Heap) (known : ExprPath → Option Value) (paths : List ExprPath) (error : Error) :
    Prop :=
  ∃ heap' known' r, Reductions p scope search heap known paths heap' known' ∧
    search known' = .due r ∧ r.source.isCall = false ∧
    r.source.result p scope heap' r.values = .error error

section Search

variable {search whole : (ExprPath → Option Value) → Readiness α}
  {part : (ExprPath → Option Value) → Readiness β}

theorem Reductions.append (h : Reductions p scope search heap known paths heap₁ known₁)
    (h' : Reductions p scope search heap₁ known₁ paths' heap' known') :
    Reductions p scope search heap known (paths ++ paths') heap' known' := by
  induction h with
  | nil => exact h'
  | cons due plain value later ih => exact .cons due plain value (ih h')

/-- Of other nodes nothing new is known. -/
theorem Reductions.known_eq (h : Reductions p scope search heap known paths heap' known')
    {q : ExprPath} (hq : q ∉ paths) : known' q = known q := by
  induction h with
  | nil => rfl
  | cons due plain value later ih =>
    obtain ⟨hne, hq⟩ := not_or.mp (mt List.mem_cons.mpr hq)
    rw [ih hq, Function.update_of_ne hne]

/-- The nodes that are evaluated in the part of a search that leads it are evaluated in the whole.
The part has to lead as long as nothing else is known of nodes outside it. -/
theorem Reductions.lift (h : Reductions p scope part heap known paths heap' known')
    (leads : ∀ known₁, (∀ q, q ∉ paths → known₁ q = known q) →
      ∀ r, part known₁ = .due r → whole known₁ = .due r) :
    Reductions p scope whole heap known paths heap' known' := by
  induction h with
  | nil => exact .nil
  | cons due plain value later ih =>
    refine .cons (leads _ (fun _ _ => rfl) _ due) plain value (ih fun known₁ agrees r hr => ?_)
    refine leads known₁ (fun q hq => ?_) r hr
    obtain ⟨hne, hq⟩ := not_or.mp (mt List.mem_cons.mpr hq)
    rw [agrees q hq, Function.update_of_ne hne]

theorem Stuck.lift (h : Stuck p scope part heap known paths error)
    (leads : ∀ known₁, (∀ q, q ∉ paths → known₁ q = known q) →
      ∀ r, part known₁ = .due r → whole known₁ = .due r) :
    Stuck p scope whole heap known paths error := by
  obtain ⟨heap', known', r, runs, due, plain, fails⟩ := h
  exact ⟨heap', known', r, runs.lift leads, leads _ (fun q => runs.known_eq) r due, plain, fails⟩

theorem Stuck.after (h : Reductions p scope search heap known paths heap₁ known₁)
    (h' : Stuck p scope search heap₁ known₁ paths' error) :
    Stuck p scope search heap known (paths ++ paths') error := by
  obtain ⟨heap', known', r, runs, stuck⟩ := h'
  exact ⟨heap', known', r, h.append runs, stuck⟩

end Search

namespace Expr

variable {path q : ExprPath} {index i : Nat} {e c : Expr} {es : List Expr} {v : Value}
  {vs : List Value}

theorem isCall_of_callFree (plain : e.callFree = true) : e.isCall = false := by
  cases e <;> first | rfl | cases plain

theorem callFreeAll_iff : callFreeAll es = true ↔ ∀ e ∈ es, e.callFree = true := by
  induction es with
  | nil => simp [callFreeAll]
  | cons e rest ih => simp [callFreeAll, ih]

theorem callFree_of_mem (plain : e.callFree = true) (hc : c ∈ e.children) : c.callFree = true := by
  cases e with
  | field receiver name => exact List.mem_singleton.mp hc ▸ plain
  | apply op operands => exact callFreeAll_iff.mp plain c hc
  | call => cases plain
  | _ => cases hc

theorem node?_cons_iff {n : Expr} :
    e.node? (i :: q) = some n ↔ ∃ c, e.children[i]? = some c ∧ c.node? q = some n := by
  rw [node?]
  cases e.children[i]? <;> simp

/-! ## Work lists of siblings -/

theorem not_mem_workListOf (hi : i < index) : path ++ [i] ++ q ∉ workListOf path index es := by
  intro h
  obtain ⟨j, hj, hq⟩ := below_of_mem_workListOf h
  exact not_prefix_of_child_ne (i := i) (by omega) (List.prefix_append ..) hq

theorem self_not_mem_workListOf : path ∉ workListOf path index es := by
  intro h
  obtain ⟨j, -, hq⟩ := below_of_mem_workListOf h
  exact absurd hq.length_le (by simp)

theorem exists_of_mem_workListOf (h : q ∈ workListOf path index es) :
    ∃ (i : Nat) (c : Expr), es[i]? = some c ∧ q ∈ c.workList (path ++ [index + i]) := by
  induction es generalizing index with
  | nil => cases h
  | cons e es ih =>
    obtain h | h := List.mem_append.mp h
    · exact ⟨0, e, rfl, h⟩
    · obtain ⟨i, c, hc, h⟩ := ih h
      exact ⟨i + 1, c, hc, by rwa [Nat.add_assoc, Nat.add_comm 1 i] at h⟩

/-- Every path of a work list leads to a node that is no constant. -/
theorem exists_node_of_mem_workList (h : q ∈ e.workList path) :
    ∃ below n, q = path ++ below ∧ e.node? below = some n ∧ n.isConst = false := by
  induction e using Expr.childrenInduction generalizing path with
  | node e ih =>
    rw [workList_eq] at h
    split at h
    · cases h
    · rename_i hconst
      obtain h | h := List.mem_append.mp h
      · obtain ⟨i, c, hc, h⟩ := exists_of_mem_workListOf h
        obtain ⟨below, n, rfl, node, hn⟩ := ih c (List.mem_of_getElem? hc) h
        exact ⟨i :: below, n, by simp, node?_cons_iff.mpr ⟨c, hc, node⟩, hn⟩
      · obtain rfl := List.mem_singleton.mp h
        exact ⟨[], e, (List.append_nil q).symm, rfl, by simpa using hconst⟩

/-- Nothing is known of the nodes of an expression and of those below it. -/
def Unknown (known : ExprPath → Option Value) (path : ExprPath) : Prop :=
  ∀ q, path <+: q → known q = none

theorem Unknown.child (unknown : Unknown known path) (i : Nat) : Unknown known (path ++ [i]) :=
  fun q hq => unknown q ((List.prefix_append ..).trans hq)

/-- While the child at `index` is evaluated, the others stay unknown. -/
theorem Unknown.sibling {search : (ExprPath → Option Value) → Readiness α}
    (unknown : Unknown known (path ++ [i])) (hi : i ≠ index)
    (runs : Reductions p scope search heap known (e.workList (path ++ [index])) heap' known') :
    Unknown known' (path ++ [i]) := by
  intro q hq
  rw [runs.known_eq fun h => not_prefix_of_child_ne hi hq (prefix_of_mem_workList h), unknown q hq]

/-- A search among siblings is led by the first one. -/
theorem leads_first {known : ExprPath → Option Value} {r : Redex}
    (due : e.readiness known (path ++ [index]) = .due r) :
    readinessOf known path index (e :: es) = .due r := by
  rw [readinessOf, due, Readiness.due_bind]

/-- A search among siblings, the first of which has a value, is led by the others. -/
theorem leads_rest {known : ExprPath → Option Value} {r : Redex}
    (first : e.value? known (path ++ [index]) = some v)
    (due : readinessOf known path (index + 1) es = .due r) :
    readinessOf known path index (e :: es) = .due r := by
  rw [readinessOf, readiness_of_value first, Readiness.ready_bind, due, Readiness.due_bind]

/-- The search below a node of which nothing is known is led by its children. -/
theorem leads_children {known : ExprPath → Option Value} {r : Redex} (hconst : e.isConst = false)
    (self : known path = none) (due : readinessOf known path 0 e.children = .due r) :
    e.readiness known path = .due r := by
  rw [readiness_of_none (by rwa [value?_of_not_const (by simp [hconst])]), due, Readiness.due_bind]

/-- A node of which nothing is known is due when its children have values. -/
theorem due_of_ready {known : ExprPath → Option Value} (hconst : e.isConst = false)
    (self : known path = none) (ready : readinessOf known path 0 e.children = .ready vs) :
    e.readiness known path = .due ⟨path, e, vs⟩ := by
  rw [readiness_of_none (by rwa [value?_of_not_const (by simp [hconst])]), ready,
    Readiness.ready_bind]

/-- The evaluation of its children does not tell anything of the node itself. -/
theorem Unknown.self (unknown : Unknown known path) (within : ∀ q ∈ paths, q ∈ workListOf path 0 es)
    (agrees : ∀ q, q ∉ paths → known' q = known q) : known' path = none := by
  rw [agrees path fun h => self_not_mem_workListOf (within path h), unknown path List.prefix_rfl]

/-- What is known of an expression is not changed by the evaluation of its right siblings. -/
theorem value?_of_agree (first : e.value? known (path ++ [index]) = some v)
    (agrees : ∀ q, q ∉ workListOf path (index + 1) es → known₁ q = known q) :
    e.value? known₁ (path ++ [index]) = some v := by
  have apart : path ++ [index] ++ [] ∉ workListOf path (index + 1) es :=
    not_mem_workListOf (Nat.lt_succ_self index)
  rw [List.append_nil] at apart
  rw [value?_congr (agrees _ apart), first]

/-! ## Evaluations that succeed -/

/-- The expression has been evaluated at `path`: each of its nodes but the constants is known by the
value that it has where the evaluation comes to it. -/
def Recorded (p : Program) (call : CallRule) (scope : Scope) (heap : Heap) (path : ExprPath)
    (e : Expr) (known : ExprPath → Option Value) : Prop :=
  ∀ q n, e.node? q = some n → n.isConst = false → ∃ h w h', e.Reaches p call scope heap q n h ∧
    n.eval p call scope h = .done (w, h') ∧ known (path ++ q) = some w

theorem Recorded.congr (h : e.Recorded p call scope heap path known)
    (agrees : ∀ q, known' (path ++ q) = known (path ++ q)) :
    e.Recorded p call scope heap path known' := by
  intro q n node hconst
  obtain ⟨h₁, w, h₂, reaches, value, hw⟩ := h q n node hconst
  exact ⟨h₁, w, h₂, reaches, value, (agrees q).trans hw⟩

/-- Where nothing is known of the expression and it has a value, due nodes lead to that value. -/
def Reduces (p : Program) (call : CallRule) (scope : Scope) (e : Expr) : Prop :=
  ∀ {heap known path v heap'}, Unknown known path → e.eval p call scope heap = .done (v, heap') →
    ∃ known', Reductions p scope (e.readiness · path) heap known (e.workList path) heap' known' ∧
      e.value? known' path = some v ∧ e.Recorded p call scope heap path known'

/-- Siblings are evaluated from left to right. -/
theorem reduces_all (each : ∀ c ∈ es, Reduces p call scope c)
    (unknown : ∀ i, index ≤ i → Unknown known (path ++ [i]))
    (h : evalAll p call scope heap es = .done (vs, heap')) :
    ∃ known', Reductions p scope (readinessOf · path index es) heap known
        (workListOf path index es) heap' known' ∧
      readinessOf known' path index es = .ready vs ∧
      ∀ i c, es[i]? = some c → ∃ ws h₁, evalAll p call scope heap (es.take i) = .done (ws, h₁) ∧
        c.Recorded p call scope h₁ (path ++ [index + i]) known' := by
  induction es generalizing index heap known vs with
  | nil =>
    cases h
    exact ⟨known, .nil, rfl, fun i c hc => by simp at hc⟩
  | cons e es ih =>
    obtain ⟨first, others⟩ := List.forall_mem_cons.mp each
    rw [evalAll_cons] at h
    obtain ⟨⟨v, heap₁⟩, he, h⟩ := Outcome.bind_eq_done_iff.mp h
    obtain ⟨⟨ws, heap₂⟩, hes, h⟩ := Outcome.bind_eq_done_iff.mp h
    cases h
    obtain ⟨known₁, runs, value, recorded⟩ := first (unknown index (Nat.le_refl _)) he
    obtain ⟨known₂, runs', ready, recorded'⟩ := ih others
      (fun i (hi : index + 1 ≤ i) => (unknown i (by omega)).sibling (by omega) runs) hes
    -- the first sibling keeps its value while the others are evaluated
    have kept : e.value? known₂ (path ++ [index]) = some v :=
      value?_of_agree value fun q hq => runs'.known_eq hq
    refine ⟨known₂, ?_, ?_, fun i c hc => ?_⟩
    · refine .append (runs.lift fun _ _ r due => leads_first due) (runs'.lift ?_)
      exact fun known₁ agrees r due => leads_rest (value?_of_agree value agrees) due
    · rw [readinessOf, readiness_of_value kept, ready]
      rfl
    · cases i with
      | zero =>
        cases hc
        refine ⟨[], heap, rfl, recorded.congr fun q => ?_⟩
        exact runs'.known_eq (not_mem_workListOf (Nat.lt_succ_self index))
      | succ i =>
        obtain ⟨us, h₁, before, recorded⟩ := recorded' i c hc
        refine ⟨v :: us, h₁, ?_, ?_⟩
        · rw [List.take_succ_cons, evalAll_cons, he, Outcome.done_bind, before, Outcome.done_bind]
        · rwa [Nat.add_assoc, Nat.add_comm 1 i] at recorded

/-- A node has been evaluated when its children have, and its own value is known. -/
theorem recorded_node (h : e.eval p call scope heap = .done (v, heap'))
    (children : ∀ i c, e.children[i]? = some c →
      ∃ ws h₁, evalAll p call scope heap (e.children.take i) = .done (ws, h₁) ∧
        c.Recorded p call scope h₁ (path ++ [i]) known) :
    e.Recorded p call scope heap path (Function.update known path (some v)) := by
  intro q n node hn
  cases q with
  | nil =>
    cases node
    exact ⟨heap, v, heap', .here, h, by rw [List.append_nil, Function.update_self]⟩
  | cons i q =>
    obtain ⟨c, hc, node⟩ := node?_cons_iff.mp node
    obtain ⟨us, h₁, before, recorded⟩ := children i c hc
    obtain ⟨h₂, w, h₃, reaches, value, hw⟩ := recorded q n node hn
    refine ⟨h₂, w, h₃, .child hc before reaches, value, ?_⟩
    rw [Function.update_of_ne (by simp), ← hw, List.append_assoc, List.singleton_append]

theorem reduces (plain : e.callFree = true) : Reduces p call scope e := by
  induction e using Expr.childrenInduction with
  | node e ih =>
    intro heap known path v heap' unknown h
    cases hconst : e.isConst with
    | true =>
      cases e with
      | const w =>
        cases h
        refine ⟨known, .nil, rfl, fun q n node hn => ?_⟩
        cases q with
        | nil => cases node; cases hn
        | cons i q => cases node
      | _ => cases hconst
    | false =>
      have hcall := isCall_of_callFree plain
      have whole := h
      rw [eval_eq hconst] at h
      obtain ⟨⟨vs, heap₁⟩, operands, finish⟩ := Outcome.bind_eq_done_iff.mp h
      rw [finish_of_not_call hcall, Outcome.ofExcept_eq_done_iff] at finish
      obtain ⟨known₁, runs, ready, recorded⟩ := reduces_all
        (fun c hc => ih c hc (callFree_of_mem plain hc)) (fun i _ => unknown.child i) operands
      -- the node itself is still unknown when its children have values, so it is due
      have due := due_of_ready hconst (unknown.self (fun _ => id) fun q => runs.known_eq) ready
      have last : Reductions p scope (e.readiness · path) heap₁ known₁ [path] heap'
          (Function.update known₁ path (some v)) :=
        @Reductions.cons _ _ _ (e.readiness · path) _ _ _ _ _ ⟨path, e, vs⟩ _ _ due hcall finish
          .nil
      refine ⟨Function.update known₁ path (some v), ?_, ?_, recorded_node whole fun i c hc => ?_⟩
      · rw [workList_eq, if_neg (by simp [hconst])]
        refine .append (runs.lift fun known' agrees r hr => ?_) last
        exact leads_children hconst (unknown.self (fun _ => id) agrees) hr
      · rw [value?_of_not_const (by simp [hconst]), Function.update_self]
      · obtain ⟨us, h₁, before, recorded⟩ := recorded i c hc
        exact ⟨us, h₁, before, by rwa [Nat.zero_add] at recorded⟩

/-! ## Evaluations that fail -/

/-- Where nothing is known of the expression and its evaluation fails, due nodes lead to the node
that fails. -/
def Sticks (p : Program) (call : CallRule) (scope : Scope) (e : Expr) : Prop :=
  ∀ {heap known path error}, Unknown known path → e.eval p call scope heap = .failed error →
    ∃ done q later, e.workList path = done ++ (path ++ q) :: later ∧
      Stuck p scope (e.readiness · path) heap known done error ∧
      e.FailsAt p call scope heap q error

/-- The first of several siblings that fails is reached when those to the left of it have values. -/
theorem sticks_all (plain : ∀ c ∈ es, c.callFree = true) (each : ∀ c ∈ es, Sticks p call scope c)
    (unknown : ∀ i, index ≤ i → Unknown known (path ++ [i]))
    (h : evalAll p call scope heap es = .failed error) :
    ∃ done i q later c ws h₁,
      workListOf path index es = done ++ (path ++ (index + i) :: q) :: later ∧
      Stuck p scope (readinessOf · path index es) heap known done error ∧
      es[i]? = some c ∧ evalAll p call scope heap (es.take i) = .done (ws, h₁) ∧
      c.FailsAt p call scope h₁ q error := by
  induction es generalizing index heap known with
  | nil => cases h
  | cons e es ih =>
    obtain ⟨plain, plain'⟩ := List.forall_mem_cons.mp plain
    obtain ⟨first, others⟩ := List.forall_mem_cons.mp each
    rw [evalAll_cons] at h
    obtain h | ⟨⟨v, heap₁⟩, he, h⟩ := Outcome.bind_eq_failed_iff.mp h
    · obtain ⟨done, q, later, split, stuck, fails⟩ := first (unknown index (Nat.le_refl _)) h
      refine ⟨done, 0, q, later ++ workListOf path (index + 1) es, e, [], heap, ?_,
        stuck.lift fun _ _ r due => leads_first due, rfl, rfl, fails⟩
      rw [workListOf, split]
      simp
    · obtain hes | ⟨a, -, h⟩ := Outcome.bind_eq_failed_iff.mp h
      · obtain ⟨known₁, runs, value, -⟩ := reduces plain (unknown index (Nat.le_refl _)) he
        obtain ⟨done, i, q, later, c, ws, h₁, split, stuck, hc, before, fails⟩ :=
          ih plain' others
            (fun i (hi : index + 1 ≤ i) => (unknown i (by omega)).sibling (by omega) runs) hes
        refine ⟨e.workList (path ++ [index]) ++ done, i + 1, q, later, c, v :: ws, h₁, ?_, ?_, hc,
          ?_, fails⟩
        · rw [workListOf, split, Nat.add_assoc, Nat.add_comm 1 i, List.append_assoc]
        · refine .after (runs.lift fun _ _ r due => leads_first due)
            (stuck.lift fun known' agrees r due => ?_)
          have agrees (q : ExprPath) (hq : q ∉ workListOf path (index + 1) es) :
              known' q = known₁ q :=
            agrees q fun hin => hq (split ▸ List.mem_append_left _ hin)
          exact leads_rest (value?_of_agree value agrees) due
        · rw [List.take_succ_cons, evalAll_cons, he, Outcome.done_bind, before, Outcome.done_bind]
      · cases h

theorem sticks (plain : e.callFree = true) : Sticks p call scope e := by
  induction e using Expr.childrenInduction with
  | node e ih =>
    intro heap known path error unknown h
    cases hconst : e.isConst with
    | true => cases e <;> first | cases h | cases hconst
    | false =>
      have hcall := isCall_of_callFree plain
      have inner (c : Expr) (hc : c ∈ e.children) := callFree_of_mem plain hc
      have fails := h
      rw [eval_eq hconst] at h
      rw [workList_eq, if_neg (by simp [hconst])]
      obtain operands | ⟨⟨vs, heap₁⟩, operands, finish⟩ := Outcome.bind_eq_failed_iff.mp h
      · obtain ⟨done, i, q, later, c, ws, h₁, split, stuck, hc, before, n, h₂, us, h₃, reaches,
            failure⟩ :=
          sticks_all inner (fun c hc => ih c hc (inner c hc)) (fun i _ => unknown.child i) operands
        rw [Nat.zero_add] at split
        refine ⟨done, i :: q, later ++ [path], by rw [split]; simp, stuck.lift ?_,
          n, h₂, us, h₃, .child hc before reaches, failure⟩
        intro known' agrees r due
        have within (q : ExprPath) (hq : q ∈ done) : q ∈ workListOf path 0 e.children :=
          split ▸ List.mem_append_left _ hq
        exact leads_children hconst (unknown.self within agrees) due
      · rw [finish_of_not_call hcall, Outcome.ofExcept_eq_failed_iff] at finish
        obtain ⟨known₁, runs, ready, -⟩ := reduces_all
          (fun c hc => reduces (inner c hc)) (fun i _ => unknown.child i) operands
        have due := due_of_ready hconst (unknown.self (fun _ => id) fun q => runs.known_eq) ready
        refine ⟨workListOf path 0 e.children, [], [], by simp, ?_, e, heap, vs, heap₁, .here,
          operands, fails⟩
        refine ⟨heap₁, known₁, ⟨path, e, vs⟩, runs.lift fun known' agrees r hr => ?_, due, hcall,
          finish⟩
        exact leads_children hconst (unknown.self (fun _ => id) agrees) hr

theorem evalAll_ne_unfinished (each : ∀ c ∈ es, ∀ heap, c.eval p call scope heap ≠ .unfinished) :
    evalAll p call scope heap es ≠ .unfinished := by
  induction es generalizing heap with
  | nil => intro h; cases h
  | cons e es ih =>
    obtain ⟨first, others⟩ := List.forall_mem_cons.mp each
    rw [evalAll_cons]
    intro h
    obtain h | ⟨r, -, h⟩ := Outcome.bind_eq_unfinished_iff.mp h
    · exact first heap h
    · obtain h | ⟨t, -, h⟩ := Outcome.bind_eq_unfinished_iff.mp h
      · exact ih others h
      · cases h

/-- Without calls no fuel is needed. -/
theorem eval_ne_unfinished (plain : e.callFree = true) :
    e.eval p call scope heap ≠ .unfinished := by
  induction e using Expr.childrenInduction generalizing heap with
  | node e ih =>
    intro h
    cases hconst : e.isConst with
    | true => cases e <;> first | cases h | cases hconst
    | false =>
      rw [eval_eq hconst] at h
      obtain h | ⟨r, -, h⟩ := Outcome.bind_eq_unfinished_iff.mp h
      · exact evalAll_ne_unfinished (fun c hc heap => ih c hc (callFree_of_mem plain hc)) h
      · rw [finish_of_not_call (isCall_of_callFree plain)] at h
        exact Outcome.ofExcept_ne_unfinished _ h

end Expr

end Microstep
