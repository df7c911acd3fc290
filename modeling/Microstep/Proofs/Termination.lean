import Mathlib.Algebra.Ring.GeomSum
import Microstep.Proofs.Activation
import Microstep.Proofs.Budget

/-!
# Termination

An activation goes through its body once, from one command to another behind it, and gets one value
after the other while it stands at a command. So it takes a bounded number of steps, not counting
those of its calls. A run can go on forever only by calls that nest ever deeper.

* `State.budget`, `State.budget_lt`: a bound on the steps to come, which each step lowers;
* `State.terminates_within_depth`: the order in which an activation goes through its body, and the
  number of steps of a run that stays within a depth.
-/

namespace Microstep

open Finset (range)

/-- The sum of the powers of `N` up to the power `j`. -/
def powerSum (N j : Nat) : Nat := ∑ k ∈ range (j + 1), N ^ k

theorem powerSum_succ (N j : Nat) : powerSum N (j + 1) = N * powerSum N j + 1 :=
  geom_sum_succ

theorem powerSum_pos (N j : Nat) : 0 < powerSum N j := by
  rw [powerSum, geom_sum_succ]
  exact Nat.succ_pos _

theorem mul_powerSum (N j : Nat) : N * powerSum N j = ∑ k ∈ range (j + 1), N ^ (k + 1) := by
  simp only [powerSum, Finset.mul_sum, pow_succ']

/-! ## The budget of an activation -/

namespace Frame

variable {p : Program} {f g : Frame} {position q : Position} {c : Command}

/-- What an activation at a position has left to spend on steps of its own. The values that it keeps
have been paid for. -/
def budget (p : Program) (f : Frame) (position : Position) : Nat :=
  match p.body? position.type position.method with
  | some commands => Program.ahead commands position.path - f.pending.size
  | none => 0

theorem budget_le (p : Program) (f : Frame) (position : Position) :
    f.budget p position ≤ p.bodyBound := by
  rw [budget]
  split
  · rename_i commands hb
    exact Nat.le_trans (Nat.sub_le ..)
      (Nat.le_trans (Program.ahead_le ..) (Program.bodyCost_le_bodyBound hb))
  · exact Nat.zero_le _

/-- A new value costs one. -/
theorem budget_record {site : Site} (unknown : f.pending[site]? = none) (v : Value) :
    (f.record site v).budget p position = f.budget p position - 1 := by
  have size : (f.record site v).pending.size = f.pending.size + 1 := by
    rw [record, Std.ExtTreeMap.size_insert, if_neg]
    simp [Std.ExtTreeMap.contains_eq_isSome_getElem?, unknown]
  rw [budget, budget, size]
  split
  · exact Nat.sub_add_eq ..
  · rfl

theorem Active.size_lt (active : f.Active p position)
    (command : p.commandAt position = .ok (some c)) : f.pending.size < c.operandNodes + 2 := by
  obtain ⟨_, done, later, hc, hw, keeps⟩ := active
  cases command.symm.trans hc
  have size := keeps.size_le
  have nodes := c.length_workList_le
  rw [show c.workList = done ++ later from hw, List.length_append] at nodes
  omega

/-- An activation can pay for one more step. -/
theorem Active.budget_pos (active : f.Active p position) : 0 < f.budget p position := by
  obtain ⟨command?, done, later, hc, hw, keeps⟩ := id active
  cases command? with
  | none =>
    obtain ⟨rfl, rfl⟩ := List.nil_eq_append_iff.mp hw
    obtain ⟨commands, hb⟩ := Program.body?_of_commandAt hc
    have size := keeps.size_le
    rw [budget, hb]
    exact Nat.sub_pos_of_lt (Nat.lt_of_le_of_lt size (Program.ahead_pos ..))
  | some c =>
    obtain ⟨commands, hb, pays⟩ := Program.ahead_add_le hc
    have ahead := pays _ (Path.lt_append position.path ⟨0, 0⟩)
    have size := active.size_lt hc
    rw [budget, hb]
    dsimp only
    omega

/-- The value that an activation waits for is not there. -/
theorem Suspended.unknown {site : Site} (suspended : f.Suspended p site) :
    f.pending[site]? = none := by
  obtain ⟨c, done, later, -, hw, keeps⟩ := suspended
  have nodup := hw ▸ c.nodup_workList
  refine Std.ExtTreeMap.getElem?_eq_none fun hin => ?_
  exact (List.nodup_append.mp nodup).2.2 _ ((keeps site).mp hin).2 _ List.mem_cons_self rfl

/-- Leaving a command costs at least one. -/
theorem Active.budget_lt (active : f.Active p position) (marked : p.Marked)
    (command : p.commandAt position = .ok (some c)) (goes : State.Goes p c position q) :
    g.budget p q < f.budget p position := by
  have lt := goes.lt marked command
  obtain ⟨path, rfl⟩ := goes.exists_path
  obtain ⟨commands, hb, pays⟩ := Program.ahead_add_le command
  rw [Position.compare_path] at lt
  have ahead := pays path lt
  have size := active.size_lt command
  simp only [budget, hb]
  omega

end Frame

/-! ## The budget of a run -/

/-- What the activations that wait have left to spend, if one that returns to `caller` lies above
them and the depth does not exceed `D`. The value they wait for is as good as paid. -/
def waitingBudget (p : Program) (D : Nat) : Option Site → List Frame → Nat
  | some site, f :: rest =>
    (f.budget p site.position - 1) * powerSum p.bodyBound (D - (rest.length + 1)) +
      waitingBudget p D f.caller rest
  | _, _ => 0

namespace State

variable {p : Program} {s t s₀ : State} {f : Frame} {rest : List Frame} {v : Option Value}
  {D n : Nat}

/-- What all activations have left to spend. With every step of its own an activation may pay for a
call. -/
def budget (p : Program) (D : Nat) (s : State) : Nat :=
  match s.memory.stack with
  | [] => 0
  | f :: rest =>
    f.budget p s.position * powerSum p.bodyBound (D - (rest.length + 1)) +
      waitingBudget p D f.caller rest

theorem budget_eq (hs : s.memory.stack = f :: rest) : s.budget p D =
    f.budget p s.position * powerSum p.bodyBound (D - (rest.length + 1)) +
      waitingBudget p D f.caller rest := by
  rw [budget, hs]

/-- One unit of the caller pays for the step of a call and for all that the callee can do. -/
theorem budget_call {N b callee w below : Nat} (pos : 0 < b) (le : callee ≤ N) :
    callee * w + ((b - 1) * (N * w + 1) + below) < b * (N * w + 1) + below := by
  obtain ⟨b, rfl⟩ : ∃ k, b = k + 1 := ⟨b - 1, (Nat.sub_add_cancel pos).symm⟩
  have le := Nat.mul_le_mul_right w le
  rw [Nat.add_sub_cancel, Nat.succ_mul]
  omega

/-- A return leaves nothing of the budget of the activation, and costs the caller nothing. -/
theorem Delivers.budget_lt (h : Delivers s f rest v t) (hs : s.memory.stack = f :: rest)
    (waiting : Waiting p f.caller rest) (pos : 0 < f.budget p s.position) :
    t.budget p D < s.budget p D := by
  have step := Nat.mul_pos pos (powerSum_pos p.bodyBound (D - (rest.length + 1)))
  rw [budget_eq hs]
  cases h with
  | finish caller status position memory =>
    rw [caller] at waiting
    cases rest with
    | nil =>
      rw [budget, memory]
      exact Nat.add_pos_left step _
    | cons g below => exact waiting.elim
  | @resume site g below caller stack status position memory =>
    subst stack
    have hstack : t.memory.stack = g.record site (v.getD .null) :: below := by rw [memory]
    rw [caller] at waiting ⊢
    rw [budget_eq hstack, position, Frame.budget_record waiting.1.unknown, waitingBudget]
    exact Nat.lt_add_of_pos_left step

/-- A step of the run lowers the budget. -/
theorem budget_lt (marked : p.Marked) (hv : Valid p s) (h : s.advance p = .ok t)
    (hD : t.depth ≤ D) : t.budget p D < s.budget p D := by
  obtain ⟨f, rest, hs, active, waiting, -⟩ := hv.of_running (advance_eq_ok h).1
  have pos := active.budget_pos
  have worth := powerSum_pos p.bodyBound (D - (rest.length + 1))
  cases advance_cases hs h with
  | @keep c r v heap command due status position memory =>
    have hstack : t.memory.stack = f.record (s.site r.path) v :: rest := by rw [memory]
    rw [budget_eq hs, budget_eq hstack, position, Frame.budget_record (unknown_of_due hs due)]
    exact Nat.add_lt_add_right
      (Nat.mul_lt_mul_of_pos_right (Nat.sub_lt pos Nat.one_pos) worth) _
  | @leave c vs heap g command ready caller pending goes status memory =>
    have hstack : t.memory.stack = g.clear s.position :: rest := by rw [memory]
    rw [budget_eq hs, budget_eq hstack, show (g.clear s.position).caller = f.caller from caller]
    exact Nat.add_lt_add_right
      (Nat.mul_lt_mul_of_pos_right (active.budget_lt marked command goes) worth) _
  | @call c r g _ _ _ _ command due caller fresh dispatch status position memory =>
    have hstack : t.memory.stack = g :: f :: rest := by rw [memory, Memory.push, hs]
    have levels : D - (rest.length + 1) = D - (rest.length + 1 + 1) + 1 := by
      rw [depth_eq hstack, List.length_cons] at hD
      omega
    rw [budget_eq hs, budget_eq hstack, caller, waitingBudget, List.length_cons,
      show (s.site r.path).position = s.position from rfl, levels, powerSum_succ]
    exact budget_call pos (g.budget_le p t.position)
  | «return» yields delivers => exact delivers.budget_lt hs waiting pos

theorem add_budget_le (marked : p.Marked) (hv : Valid p s) (h : s.iterate p n = .ok t)
    (hD : ∀ m ≤ n, ∀ u, s.iterate p m = .ok u → u.depth ≤ D) :
    n + t.budget p D ≤ s.budget p D := by
  induction n generalizing t with
  | zero => cases h; exact Nat.le_of_eq (Nat.zero_add _)
  | succ n ih =>
    obtain ⟨u, hu, ha⟩ := bind_eq_ok_iff.mp (iterate_succ.symm.trans h)
    have le := ih hu fun m hm => hD m (Nat.le_succ_of_le hm)
    have lt := budget_lt marked (iterate_valid hv hu) ha (hD (n + 1) (Nat.le_refl _) t h)
    omega

/-- A run that stays within a depth takes so many steps at most. -/
theorem length_le_of_depth_le {type method : String} (marked : p.Marked)
    (start : State.start p type method = .ok s) (run : s.iterate p n = .ok t)
    (hD : ∀ m ≤ n, ∀ u, s.iterate p m = .ok u → u.depth ≤ D) :
    n ≤ ∑ k ∈ range D, p.bodyBound ^ (k + 1) := by
  obtain ⟨f, hs, caller, -⟩ := start_stack start
  have le := add_budget_le marked (start_valid start) run hD
  have one := hD 0 (Nat.zero_le n) s rfl
  rw [depth_eq hs] at one
  obtain ⟨j, rfl⟩ : ∃ j, D = j + 1 := ⟨D - 1, (Nat.sub_add_cancel one).symm⟩
  rw [budget_eq hs, caller, show waitingBudget p (j + 1) none [] = 0 from rfl, Nat.add_zero,
    List.length_nil, Nat.zero_add, Nat.add_sub_cancel] at le
  rw [← mul_powerSum]
  have all := Nat.mul_le_mul_right (powerSum p.bodyBound j) (f.budget_le p s.position)
  omega

/-! ## The way through a body -/

/-- An activation stays at a command as long as it gets values for it, and leaves it for one
behind it. -/
theorem Resumes.forward (h : s.Resumes p n t) (marked : p.Marked) (hv : Valid p s) :
    (t.position = s.position ∧ ∃ f g rest path v, s.memory.stack = f :: rest ∧
      f.Gains ⟨s.position, path⟩ v g ∧ t.memory.stack = g :: rest) ∨
    (n = 1 ∧ compare s.position t.position = .lt) := by
  obtain ⟨f, rest, hs, continues⟩ := h.top hv
  cases continues with
  | keep command due position stack =>
    have gains := Frame.gains_record (unknown_of_due hs due)
    exact .inl ⟨position, f, _, rest, _, _, hs, gains _, stack⟩
  | leave once command ready pending goes stack => exact .inr ⟨once, goes.lt marked command⟩

/-- An activation never goes back. -/
theorem isLE_position (marked : p.Marked) (hv : Valid p s) (run : s.iterate p n = .ok t)
    (stays : s.Stays p s.depth n) (depth : t.depth = s.depth) :
    (compare s.position t.position).isLE = true := by
  obtain ⟨k, u, latest, le⟩ := exists_latest
    (motive := fun u => (compare s.position u.position).isLE = true)
    (by rw [Std.compare_self]; rfl)
    (fun k u m t hu le resumes => by
      obtain ⟨same, -⟩ | ⟨-, lt⟩ := resumes.forward marked (iterate_valid hv hu)
      · rwa [same]
      · exact Std.TransCmp.isLE_trans le (by rw [lt]; rfl)) run stays
  rwa [latest.eq run depth]

/-- An activation goes through its body in the order of the positions: while it stands at a command
it gets one more value at a time, by an evaluation or by a call, and it never comes back to a
command that it has left. Hence only calls that nest ever deeper can keep a run from ending: if it
stays within a depth `D`, the number of its steps is bounded by the powers of the cost of the most
expensive body, up to the power `D`. -/
theorem terminates_within_depth {type method : String} {s₀ : State} {i : Nat} (marked : p.Marked)
    (start : State.start p type method = .ok s₀) (run : s₀.iterate p i = .ok s) :
    (∀ n t, s.Resumes p n t →
      (t.position = s.position ∧ ∃ f g rest path v, s.memory.stack = f :: rest ∧
        f.Gains ⟨s.position, path⟩ v g ∧ t.memory.stack = g :: rest) ∨
      (n = 1 ∧ compare s.position t.position = .lt)) ∧
    (∀ n t, s.iterate p n = .ok t → s.Stays p s.depth n → t.depth = s.depth →
      (compare s.position t.position).isLE ∧
      ∀ m u, t.iterate p m = .ok u → t.Stays p t.depth m → u.depth = t.depth →
        u.position = s.position → t.position = s.position) ∧
    ∀ D, (∀ m ≤ i, ∀ t, s₀.iterate p m = .ok t → t.depth ≤ D) →
      i ≤ ∑ k ∈ range D, p.bodyBound ^ (k + 1) := by
  have hv := iterate_valid (start_valid start) run
  refine ⟨fun n t resumes => resumes.forward marked hv, fun n t ht stays depth => ?_,
    fun D hD => length_le_of_depth_le marked start run hD⟩
  have le := isLE_position marked hv ht stays depth
  refine ⟨le, fun m u hu stays' depth' back => ?_⟩
  have ge := isLE_position marked (iterate_valid hv ht) hu stays' depth'
  rw [back] at ge
  exact (Std.LawfulEqOrd.eq_of_compare (Std.OrientedCmp.isLE_antisymm le ge)).symm

/-- In 15 steps, until its first call has returned, the counter stays within depth 2, where a run
can have 306 steps. -/
theorem terminates_within_depth_counter :
    ∃ s₀ s : State, State.start .counter "Main" "main" = .ok s₀ ∧ Program.counter.Marked ∧
      s₀.iterate .counter 15 = .ok s ∧ 15 ≤ ∑ k ∈ range 2, Program.counter.bodyBound ^ (k + 1) := by
  have marked : Program.counter.Marked := by decide
  have depths : ∀ k < 16, ((State.start .counter "Main" "main").bind
      (·.iterate .counter k)).toOption.map (fun s => decide (s.depth ≤ 2)) = some true := by
    decide +kernel
  obtain ⟨s₀, s, hs₀, hs, -⟩ := exists_of_view (depths 15 (by omega))
  obtain ⟨-, -, bound⟩ := terminates_within_depth marked hs₀ hs
  refine ⟨s₀, s, hs₀, marked, hs, bound 2 fun m hm t ht => ?_⟩
  exact of_decide_eq_true (view_eq hs₀ ht (depths m (by omega)))

end State

/-- The cost of the most expensive body of the counter. -/
example : Program.counter.bodyBound = 17 := by decide

end Microstep
