import Microstep.Proofs.Transition

/-!
# Traces

The states of a run in a list, from the first one on. The list is shorter than asked for if the run
ends before; otherwise its elements are the states of the run by number.

* `State.trace`: the states up to some step;
* `State.getElem?_trace_iff`: its elements, by number.
-/

namespace Microstep.State

variable {p : Program} {s t : State} {i m n : Nat}

/-- The states of a run up to step `n`, as far as it goes. -/
def trace (p : Program) (s : State) (n : Nat) : List State :=
  (List.range (n + 1)).filterMap fun m => (s.iterate p m).toOption

theorem trace_succ (run : s.iterate p (n + 1) = .ok t) :
    trace p s (n + 1) = trace p s n ++ [t] := by
  rw [trace, List.range_succ (n := n + 1), List.filterMap_append]
  simp [trace, run, Except.toOption]

theorem trace_succ_error {e : Error} (run : s.iterate p (n + 1) = .error e) :
    trace p s (n + 1) = trace p s n := by
  rw [trace, List.range_succ (n := n + 1), List.filterMap_append]
  simp [trace, run, Except.toOption]

theorem trace_zero : trace p s 0 = [s] := rfl

/-- A run that goes far enough fills its trace. -/
theorem length_trace (run : s.iterate p n = .ok t) : (trace p s n).length = n + 1 := by
  induction n generalizing t with
  | zero => rfl
  | succ n ih =>
    obtain ⟨u, hu⟩ := exists_of_iterate run (Nat.le_succ n)
    rw [trace_succ run, List.length_append, ih hu, List.length_singleton]

/-- The states of a trace by number. -/
theorem getElem?_trace_iff : (trace p s n)[i]? = some t ↔ i ≤ n ∧ s.iterate p i = .ok t := by
  induction n generalizing t with
  | zero =>
    cases i with
    | zero => simp [trace_zero, iterate]
    | succ i => simp [trace_zero]
  | succ n ih =>
    cases run : s.iterate p (n + 1) with
    | error e =>
      rw [trace_succ_error run, ih]
      refine and_congr_left fun ht => ⟨Nat.le_succ_of_le, fun hi => Nat.le_of_not_lt fun lt => ?_⟩
      obtain rfl := Nat.le_antisymm hi lt
      cases run.symm.trans ht
    | ok u =>
      obtain ⟨v, hv⟩ := exists_of_iterate run (Nat.le_succ n)
      have hlen := length_trace hv
      rw [trace_succ run]
      obtain hi | rfl | hi := Nat.lt_trichotomy i (n + 1)
      · rw [List.getElem?_append_left (by omega), ih]
        exact and_congr_left fun _ => by omega
      · rw [List.getElem?_append_right (by omega), hlen, run]
        simp
      · have short : (trace p s n ++ [u]).length ≤ i := by
          rw [List.length_append, hlen, List.length_singleton]
          omega
        simp [List.getElem?_eq_none short, Nat.not_le_of_lt hi]

theorem mem_trace : t ∈ trace p s n ↔ ∃ m ≤ n, s.iterate p m = .ok t := by
  simp [List.mem_iff_getElem?, getElem?_trace_iff]

/-- Only the last state of a trace can be finished. -/
theorem unfinished_of_mem_dropLast_trace (h : t ∈ (trace p s n).dropLast) :
    t.isFinished = false := by
  obtain ⟨i, hi⟩ := List.getElem?_of_mem h
  rw [List.getElem?_dropLast] at hi
  split at hi
  · rename_i lt
    obtain ⟨u, hu⟩ : ∃ u, (trace p s n)[i + 1]? = some u :=
      ⟨_, List.getElem?_eq_getElem (by omega)⟩
    have run := (getElem?_trace_iff.mp hi).2
    have next := advance_of_iterate run (getElem?_trace_iff.mp hu).2
    cases hf : t.isFinished with
    | false => rfl
    | true =>
      rw [advance_of_finished hf] at next
      cases next
  · cases hi

theorem trace_prefix (h : m ≤ n) : trace p s m <+: trace p s n := by
  obtain ⟨d, rfl⟩ := Nat.exists_eq_add_of_le h
  rw [trace, trace, Nat.add_right_comm, List.range_add (n := m + 1), List.filterMap_append]
  exact List.prefix_append _ _

end Microstep.State
