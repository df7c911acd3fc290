import Microstep.Proofs.Denotation

/-!
# Steps of call-free expressions

Whatever the state, the steps of an expression without calls compute what its evaluation by
recursion says: as many steps as there are nodes, the same value and the same heap, and for every
node the value that the evaluation gives it. An evaluation that fails is one in which a step fails.

* `State.stepTimes`: several steps of one expression;
* `State.Learns`, `State.stepTimes_of_reductions`: each step evaluates the node that is due;
* `State.Settles`, `State.step_denotes`: what the steps come to.
-/

namespace Microstep.State

variable {p : Program} {s t : State} {f : Frame} {rest : List Frame} {path : ExprPath} {e : Expr}
  {scope : Scope} {heap heap' : Heap} {known known' : ExprPath → Option Value} {r : Redex}
  {paths : List ExprPath} {v : Value} {error : Error} {n : Nat}

/-- The state after `n` steps of the expression at `path` of the current command. -/
def stepTimes (p : Program) (path : ExprPath) (e : Expr) : Nat → State → Except Error State
  | 0, s => .ok s
  | n + 1, s => do stepTimes p path e n (← s.step p path e)

theorem stepTimes_succ :
    s.stepTimes p path e (n + 1) = s.stepTimes p path e n >>= fun t => t.step p path e := by
  induction n generalizing s with
  | zero =>
    show (s.step p path e >>= fun t => Except.ok t) = s.step p path e
    cases s.step p path e <;> rfl
  | succ n ih =>
    rw [stepTimes, stepTimes]
    cases s.step p path e with
    | error e => rfl
    | ok t => exact ih

/-- An expression that has been evaluated is not stepped again. -/
theorem step_of_evaluated (hs : s.memory.stack = f :: rest)
    (evaluated : s.evaluate path e = .ok (some v)) :
    s.step p path e = .error
      (.protocolViolation s!"step requested for '{e.text}', which is already evaluated") := by
  rw [step_eq hs, requireDue, evaluated]
  rfl

/-- An expression in which a node is due has no value. -/
theorem evaluate_of_due (hs : s.memory.stack = f :: rest)
    (due : e.readiness s.known path = .due r) : s.evaluate path e = .ok none := by
  rw [evaluate_eq hs]
  cases hv : e.value? s.known path with
  | none => rfl
  | some v => rw [Expr.readiness_of_value hv] at due; cases due

theorem step_of_due (hs : s.memory.stack = f :: rest) (due : e.readiness s.known path = .due r)
    (plain : r.source.isCall = false) :
    s.step p path e = r.source.result p f.toScope s.memory.heap r.values >>= fun (v, h) =>
      .ok { s with memory := ⟨h, f.record (s.site r.path) v :: rest⟩ } := by
  obtain ⟨hconst, hlen⟩ := Expr.operands_of_readiness due
  rw [step_eq_fire hs due, fire_value hs hconst plain hlen]

/-- The state `t` is `s` but for the heap, which is `h`, and for what is known of the nodes of the
current command. -/
structure Learns (s : State) (f : Frame) (rest : List Frame) (h : Heap)
    (known : ExprPath → Option Value) (t : State) : Prop where
  state : ∃ pending, t = { s with memory := ⟨h, { f with pending } :: rest⟩ }
  known : t.known = known
  others : ∀ site : Site, site.position ≠ s.position →
    t.memory.pending site = s.memory.pending site

theorem Learns.stack (learns : s.Learns f rest heap known t) :
    ∃ pending, t.memory.stack = { f with pending } :: rest ∧ t.memory.heap = heap := by
  obtain ⟨pending, rfl⟩ := learns.state
  exact ⟨pending, rfl, rfl⟩

theorem Learns.refl (hs : s.memory.stack = f :: rest) :
    s.Learns f rest s.memory.heap s.known s :=
  ⟨⟨f.pending, by rw [← hs]⟩, rfl, fun _ _ => rfl⟩

/-- The value of one more node is known. -/
theorem learns_record (hs : s.memory.stack = f :: rest) (q : ExprPath) (v : Value) (h : Heap) :
    s.Learns f rest h (Function.update s.known q (some v))
      { s with memory := ⟨h, f.record (s.site q) v :: rest⟩ } where
  state := ⟨_, rfl⟩
  known := by
    funext q'
    rw [known_eq (f := f.record (s.site q) v) rfl]
    refine (f.getElem?_pending_record _ _ v).trans ?_
    obtain rfl | hne := eq_or_ne q' q
    · rw [Function.update_self]
      exact if_pos rfl
    · rw [Function.update_of_ne hne, known_eq hs]
      exact if_neg fun h => hne (congrArg Site.path h).symm
  others site hsite := by
    have other : s.site q ≠ site := fun h => hsite (h ▸ rfl)
    simp [Memory.pending, Memory.top, hs, Frame.getElem?_pending_record, other]

theorem Learns.trans {pending : Std.ExtTreeMap Site Value}
    (learns : s.Learns f rest heap known { s with memory := ⟨heap, { f with pending } :: rest⟩ })
    (later : Learns { s with memory := ⟨heap, { f with pending } :: rest⟩ } { f with pending } rest
      heap' known' t) : s.Learns f rest heap' known' t where
  state := later.state
  known := later.known
  others site hsite := (later.others site hsite).trans (learns.others site hsite)

/-- Steps evaluate the nodes that are due, and leave all else as it is. Until the last of them the
expression has no value. -/
theorem stepTimes_of_reductions (hs : s.memory.stack = f :: rest) (hscope : f.toScope = scope)
    (hheap : s.memory.heap = heap) (hknown : s.known = known)
    (runs : Reductions p scope (e.readiness · path) heap known paths heap' known') :
    (∀ k < paths.length, ∃ t, s.stepTimes p path e k = .ok t ∧ t.evaluate path e = .ok none) ∧
    ∃ t, s.stepTimes p path e paths.length = .ok t ∧ s.Learns f rest heap' known' t := by
  induction runs generalizing s f with
  | nil =>
    subst hheap hknown
    exact ⟨fun k hk => absurd hk (Nat.not_lt_zero k), s, rfl, .refl hs⟩
  | @cons heap heap₁ _ known _ r v paths due plain value later ih =>
    subst hscope hheap hknown
    have step : s.step p path e = .ok { s with memory :=
        ⟨heap₁, f.record (s.site r.path) v :: rest⟩ } := by
      rw [step_of_due hs due plain, value, ok_bind]
    have learns := learns_record hs r.path v heap₁
    obtain ⟨before, t, after, later⟩ := ih (s := { s with memory :=
      ⟨heap₁, f.record (s.site r.path) v :: rest⟩ }) rfl rfl rfl learns.known
    have first (k : Nat) : s.stepTimes p path e (k + 1) =
        stepTimes p path e k { s with memory := ⟨heap₁, f.record (s.site r.path) v :: rest⟩ } := by
      rw [stepTimes, step, ok_bind]
    refine ⟨fun k hk => ?_, t, (first paths.length).trans after, learns.trans later⟩
    cases k with
    | zero => exact ⟨s, rfl, evaluate_of_due hs due⟩
    | succ k =>
      obtain ⟨t, ht, none⟩ := before k (Nat.lt_of_succ_lt_succ hk)
      exact ⟨t, (first k).trans ht, none⟩

/-- The state `t` differs from `s` by the heap, which is `h`, and by the values of the nodes of the
expression at `path`, which are known in `t`. -/
structure Settles (p : Program) (call : CallRule) (s : State) (f : Frame) (rest : List Frame)
    (path : ExprPath) (e : Expr) (h : Heap) (t : State) : Prop where
  state : ∃ pending, t = { s with memory := ⟨h, { f with pending } :: rest⟩ }
  nodes : e.Recorded p call f.toScope s.memory.heap path t.known
  others : ∀ site, (∀ q n, e.node? q = some n → n.isConst = false → site ≠ s.site (path ++ q)) →
    t.memory.pending site = s.memory.pending site

/-- When the nodes of the work list have been evaluated, nothing is known of other nodes that was
not known before. -/
theorem Learns.settles {call : CallRule} (hs : s.memory.stack = f :: rest)
    (learns : s.Learns f rest heap known t)
    (nodes : e.Recorded p call f.toScope s.memory.heap path known)
    (same : ∀ q, q ∉ e.workList path → known q = s.known q) :
    s.Settles p call f rest path e heap t where
  state := learns.state
  nodes := learns.known ▸ nodes
  others site hsite := by
    by_cases hposition : site.position = s.position
    · obtain ⟨_, q⟩ := site
      cases hposition
      have hq : q ∉ e.workList path := fun hq => by
        obtain ⟨below, n, rfl, node, hn⟩ := Expr.exists_node_of_mem_workList hq
        exact hsite below n node hn rfl
      have known := learns.known
      obtain ⟨pending, rfl⟩ := learns.state
      calc _ = Except.ok (State.known _ q) := pending_eq rfl q
        _ = Except.ok (s.known q) := by rw [known, same q hq]
        _ = _ := (pending_eq hs q).symm
    · exact learns.others site hposition

/-- The steps of an expression that has a value. -/
theorem steps_of_value {call : CallRule} (hs : s.memory.stack = f :: rest)
    (plain : e.callFree = true) (unknown : Expr.Unknown s.known path)
    (value : e.eval p call f.toScope s.memory.heap = .done (v, heap)) :
    (∀ k < e.nodes, ∃ t, s.stepTimes p path e k = .ok t ∧ t.evaluate path e = .ok none) ∧
    ∃ t, s.stepTimes p path e e.nodes = .ok t ∧ t.evaluate path e = .ok (some v) ∧
      t.step p path e = .error (.protocolViolation
        s!"step requested for '{e.text}', which is already evaluated") ∧
      s.Settles p call f rest path e heap t := by
  obtain ⟨known', runs, value', recorded⟩ := Expr.reduces plain unknown value
  obtain ⟨before, t, after, learns⟩ := stepTimes_of_reductions hs rfl rfl rfl runs
  rw [Expr.length_workList] at before after
  obtain ⟨pending, ht, -⟩ := learns.stack
  have evaluated : t.evaluate path e = .ok (some v) := by
    rw [evaluate_eq ht, learns.known, value']
  exact ⟨before, t, after, evaluated, step_of_evaluated ht evaluated,
    learns.settles hs recorded fun q => runs.known_eq⟩

/-- The steps of an expression whose evaluation fails. -/
theorem steps_of_failure {call : CallRule} (hs : s.memory.stack = f :: rest)
    (plain : e.callFree = true) (unknown : Expr.Unknown s.known path)
    (failure : e.eval p call f.toScope s.memory.heap = .failed error) :
    ∃ done q later, e.workList path = done ++ (path ++ q) :: later ∧
      e.FailsAt p call f.toScope s.memory.heap q error ∧
      (∀ k ≤ done.length, ∃ t, s.stepTimes p path e k = .ok t ∧ t.evaluate path e = .ok none) ∧
      s.stepTimes p path e (done.length + 1) = .error error := by
  obtain ⟨done, q, later, split, ⟨heap', known', r, runs, due, hcall, fails⟩, failsAt⟩ :=
    Expr.sticks plain unknown failure
  obtain ⟨before, t, after, learns⟩ := stepTimes_of_reductions hs rfl rfl rfl runs
  obtain ⟨pending, ht, hheap⟩ := learns.stack
  have due : e.readiness t.known path = .due r := by rw [learns.known]; exact due
  refine ⟨done, q, later, split, failsAt, fun k hk => ?_, ?_⟩
  · obtain hk | rfl := Nat.lt_or_eq_of_le hk
    · exact before k hk
    · exact ⟨t, after, evaluate_of_due ht due⟩
  · rw [stepTimes_succ, after, ok_bind, step_of_due ht due hcall, hheap, fails, error_bind]

/-- The steps of an expression without calls, of whose nodes nothing is known. If it has a value,
there are as many steps as it has nodes, and the value is there after the last one. If its
evaluation fails, so does the step of the node at which it does, after as many steps as there are
nodes before that one. It has a value or fails. -/
theorem step_denotes (hs : s.memory.stack = f :: rest) (plain : e.callFree = true)
    (unknown : ∀ q, path <+: q → f.pending[s.site q]? = none) (call : CallRule) :
    (∀ v h, e.eval p call f.toScope s.memory.heap = .done (v, h) →
      (∀ k < e.nodes, ∃ t, s.stepTimes p path e k = .ok t ∧ t.evaluate path e = .ok none) ∧
      ∃ t, s.stepTimes p path e e.nodes = .ok t ∧ t.evaluate path e = .ok (some v) ∧
        t.step p path e = .error (.protocolViolation
          s!"step requested for '{e.text}', which is already evaluated") ∧
        s.Settles p call f rest path e h t) ∧
    (∀ error, e.eval p call f.toScope s.memory.heap = .failed error →
      ∃ done q later, e.workList path = done ++ (path ++ q) :: later ∧
        e.FailsAt p call f.toScope s.memory.heap q error ∧
        (∀ k ≤ done.length, ∃ t, s.stepTimes p path e k = .ok t ∧ t.evaluate path e = .ok none) ∧
        s.stepTimes p path e (done.length + 1) = .error error) ∧
    e.eval p call f.toScope s.memory.heap ≠ .unfinished := by
  have unknown : Expr.Unknown s.known path := fun q hq => (known_eq hs q).trans (unknown q hq)
  exact ⟨fun _ _ => steps_of_value hs plain unknown,
    fun _ => steps_of_failure hs plain unknown, Expr.eval_ne_unfinished plain⟩

/-- The field of a new counter is compared with zero in three steps. A variable that is not there
fails instead, after the two steps of its left sibling. -/
theorem step_denotes_counter :
    ∃ s : State, ∃ f : Frame, ∃ good bad : Expr, s.memory.stack = [f] ∧ good.callFree = true ∧
      bad.callFree = true ∧ (∀ q, [1] <+: q → f.pending[s.site q]? = none) ∧
      (∃ t, s.stepTimes .counter [1] good 3 = .ok t ∧
        t.evaluate [1] good = .ok (some (.bool true))) ∧
      ∃ k, (∃ t, s.stepTimes .counter [1] bad k = .ok t) ∧
        s.stepTimes .counter [1] bad (k + 1) = .error (.undefinedVariable "x") := by
  let f : Frame := .enter (.empty ⟨0⟩) "main" none "Main"
  let s : State := ⟨⟨.empty, [f]⟩, ⟨"Main", "main", [⟨0, 1⟩]⟩, [], .running⟩
  let left : Expr := .field (.new "Counter") "n"
  let good : Expr := .apply .eq [left, .const (.int 0)]
  let bad : Expr := .apply .eq [left, .var "x"]
  let call : CallRule := fun _ _ _ _ _ => .unfinished
  have unknown : ∀ q, [1] <+: q → f.pending[s.site q]? = none := fun q _ => by
    simp [f, Frame.enter]
  have value : (good.eval .counter call f.toScope s.memory.heap) =
      .done (.bool true, (Heap.empty.allocate ⟨"Counter", .ofList [("n", Value.int 0)]⟩).2) := by
    decide +kernel
  have failure : bad.eval .counter call f.toScope s.memory.heap =
      .failed (.undefinedVariable "x") := by decide +kernel
  obtain ⟨-, t, steps, evaluated, -⟩ :=
    (step_denotes (s := s) (f := f) rfl (by decide) unknown call).1 _ _ value
  obtain ⟨done, -, -, -, -, before, fails⟩ :=
    (step_denotes (s := s) (f := f) rfl (by decide) unknown call).2.1 _ failure
  obtain ⟨u, hu, -⟩ := before done.length (Nat.le_refl _)
  exact ⟨s, f, good, bad, rfl, by decide, by decide, unknown, ⟨t, steps, evaluated⟩,
    done.length, ⟨u, hu⟩, fails⟩

end Microstep.State
