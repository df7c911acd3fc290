import Mathlib.Algebra.GroupWithZero.Nat
import Mathlib.Data.List.Induction
import Microstep.Recording

/-!
# What a recording keeps

Of the states that are offered to it a recording keeps, in order, each one that fits beside those
that it has kept before. Its counter is what these states take. A state that is refused leaves no
trace, so that a smaller one can still be kept. What should be kept is said apart from the counter:
`greedy` adds up what it has kept each time anew.

* `State.footprint_eq`: the estimated memory of a state, part by part;
* `Recording.greedy`: the offered states that should be kept;
* `Recording.toList_offer`: what becomes of one state that is offered;
* `Recording.toList_offerAll`: the states that are kept of all that are offered;
* `Recording.greedy_log`: recordings after any sequence of states.
-/

namespace Microstep

/-- The frames with their variables and node values, the objects with their fields, and the levels
of the position. -/
theorem State.footprint_eq (s : State) :
    s.footprint =
      (s.memory.stack.map fun f => 100 + 40 * (f.locals.keys.length + f.pending.keys.length)).sum +
      (s.memory.heap.objects.toList.map fun o => 50 + 40 * o.fields.keys.length).sum +
      16 * s.position.path.length := by
  simp only [footprint, Frame.footprint, Object.footprint, ← Array.foldl_toList, List.sum_eq_foldl,
    List.foldl_map, Std.ExtTreeMap.length_keys, Position.depth]

namespace Recording

variable {r : Recording} {s : State} {limit : Nat} {offered : List State}

theorem used_eq_sum (r : Recording) : r.used = (r.toList.map State.footprint).sum := by
  rw [r.used_eq, ← Array.foldl_toList, List.sum_eq_foldl, List.foldl_map, toList]

theorem fits_iff : r.Fits s ↔ (r.toList.map State.footprint).sum + s.footprint ≤ r.limit := by
  rw [Fits, used_eq_sum]

/-! ## One state -/

theorem offer_of_fits (fits : r.Fits s) : r.offer s = (r.add s fits, none) := by
  rw [offer, push_eq_ok_iff.mpr ⟨fits, rfl⟩]

theorem offer_of_not_fits (full : ¬ r.Fits s) : r.offer s = (r, some (r.overflow s)) := by
  rw [offer, push_eq_error_iff.mpr ⟨full, rfl⟩]

theorem limit_offer (r : Recording) (s : State) : (r.offer s).1.limit = r.limit := by
  by_cases fits : r.Fits s
  · rw [offer_of_fits fits]
    rfl
  · rw [offer_of_not_fits fits]

theorem toList_add (r : Recording) (s : State) (fits : r.Fits s) :
    (r.add s fits).toList = r.toList ++ [s] := by
  simp [toList]

/-- A state that fits is kept behind the others, and a state that does not is not kept. -/
theorem toList_offer (r : Recording) (s : State) :
    (r.offer s).1.toList =
      if (r.toList.map State.footprint).sum + s.footprint ≤ r.limit then r.toList ++ [s]
      else r.toList := by
  by_cases fits : r.Fits s
  · rw [offer_of_fits fits, if_pos (fits_iff.mp fits), toList_add]
  · rw [offer_of_not_fits fits, if_neg (mt fits_iff.mpr fits)]

/-! ## Many states -/

/-- Goes through the offered states, and keeps a state if it fits beside those that are kept. -/
def greedy (limit : Nat) (kept : List State) : List State → List State
  | [] => kept
  | s :: offered =>
    if (kept.map State.footprint).sum + s.footprint ≤ limit then
      greedy limit (kept ++ [s]) offered
    else
      greedy limit kept offered

theorem offerAll_concat (r : Recording) (offered : List State) (s : State) :
    r.offerAll (offered ++ [s]) = ((r.offerAll offered).offer s).1 :=
  List.foldl_append

theorem limit_offerAll (r : Recording) (offered : List State) :
    (r.offerAll offered).limit = r.limit := by
  induction offered using List.reverseRecOn with
  | nil => rfl
  | append_singleton offered s ih => rw [offerAll_concat, limit_offer, ih]

/-- What is kept of the offered states is what should be kept. -/
theorem toList_offerAll (r : Recording) (offered : List State) :
    (r.offerAll offered).toList = greedy r.limit r.toList offered := by
  induction offered generalizing r with
  | nil => rfl
  | cons s offered ih =>
    have rest : (r.offerAll (s :: offered)).toList =
        greedy r.limit (r.offer s).1.toList offered := by
      rw [← limit_offer r s]
      exact ih (r.offer s).1
    rw [rest, toList_offer, greedy]
    split <;> rfl

/-- A recording is a greedy log. Of the states that are offered, one after the other, it keeps each
that fits beside what it has kept before, and its counter is the memory that these states take. A
state that does not fit is refused, with the memory that would have been taken, and changes nothing,
so that a smaller one can still be kept. All ways to look into a recording show the same states. -/
theorem greedy_log (limit : Nat) (offered : List State) :
    let r := (empty limit).offerAll offered
    r.toList = greedy limit [] offered ∧
    r.used = (r.toList.map State.footprint).sum ∧ r.used ≤ limit ∧
    (∀ s, r.used + s.footprint ≤ limit →
      ∃ longer, r.push s = .ok longer ∧ longer.toList = r.toList ++ [s] ∧
        (empty limit).offerAll (offered ++ [s]) = longer) ∧
    (∀ s, limit < r.used + s.footprint →
      r.push s = .error (.snapshotLimitExceeded (r.used + s.footprint) limit) ∧
        (empty limit).offerAll (offered ++ [s]) = r ∧
        ∀ t, r.used + t.footprint ≤ limit →
          ((empty limit).offerAll (offered ++ [s, t])).toList = r.toList ++ [t]) ∧
    (∀ i, r.get? i = r.toList[i]?) ∧ r.last? = r.toList.getLast? ∧ r.size = r.toList.length ∧
    ∀ s : State, s.footprint =
      (s.memory.stack.map fun f => 100 + 40 * (f.locals.keys.length + f.pending.keys.length)).sum +
      (s.memory.heap.objects.toList.map fun o => 50 + 40 * o.fields.keys.length).sum +
      16 * s.position.path.length := by
  intro r
  have limit_eq : r.limit = limit := limit_offerAll (empty limit) offered
  refine ⟨toList_offerAll (empty limit) offered, used_eq_sum r, limit_eq ▸ r.used_le,
    fun s room => ?_, fun s large => ?_, fun i => Array.getElem?_toList.symm, ?_,
    Array.length_toList.symm, State.footprint_eq⟩
  · have fits : r.Fits s := by rwa [Fits, limit_eq]
    refine ⟨r.add s fits, push_eq_ok_iff.mpr ⟨fits, rfl⟩, toList_add r s fits, ?_⟩
    rw [offerAll_concat, offer_of_fits fits]
  · have full : ¬ r.Fits s := by rwa [Fits, limit_eq, Nat.not_le]
    have unchanged : (empty limit).offerAll (offered ++ [s]) = r := by
      rw [offerAll_concat, offer_of_not_fits full]
    refine ⟨?_, unchanged, fun t room => ?_⟩
    · rw [push_eq_error_iff.mpr ⟨full, rfl⟩, overflow, limit_eq]
    · have fits : r.Fits t := by rwa [Fits, limit_eq]
      rw [List.append_cons, offerAll_concat, unchanged, offer_of_fits fits, toList_add]
  · rw [last?, toList, Array.getLast?_toList]

/-- Beside two levels there is no room for two more, but just enough for one. -/
theorem greedy_log_boundary :
    let deep (n : Nat) : State :=
      ⟨.empty, ⟨"Main", "main", List.replicate n ⟨0, 0⟩⟩, [], .running⟩
    let r := (empty 48).offerAll [deep 2]
    r.push (deep 2) = .error (.snapshotLimitExceeded 64 48) ∧
      ((empty 48).offerAll [deep 2, deep 2, deep 1]).toList = [deep 2, deep 1] ∧
      ∃ longer, r.push (deep 1) = .ok longer ∧ longer.toList = [deep 2, deep 1] := by
  intro deep r
  obtain ⟨kept, -, -, accepts, refuses, -⟩ := greedy_log 48 [deep 2]
  have kept : r.toList = [deep 2] := kept
  obtain ⟨refused, -, later⟩ := refuses (deep 2) (by decide)
  obtain ⟨longer, accepted, states, -⟩ := accepts (deep 1) (by decide)
  refine ⟨refused, ?_, longer, accepted, ?_⟩
  · have later := later (deep 1) (by decide)
    rwa [kept] at later
  · rwa [kept] at states

end Recording

end Microstep
