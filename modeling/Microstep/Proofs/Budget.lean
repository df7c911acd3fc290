import Mathlib.Algebra.Order.BigOperators.Group.List
import Mathlib.Algebra.Order.Ring.Nat
import Microstep.Itinerary
import Microstep.Proofs.Occurrence
import Microstep.Proofs.Validity

/-!
# The cost of bodies

What one activation of a method can cost at most, read off its body: for each command, nested ones
included, its operand nodes, a call, and leaving it; and the return. The part of the cost that lies
at a position or behind it pays for the command there and for what is ahead of the next one.

* `bodyCost`, `Program.bodyBound`: the cost of a body, and of the most expensive one;
* `Program.ahead`, `Program.ahead_add_le`: the cost that is left, and the command it pays for;
* `Frame.Keeps.size_le`: values are kept only for the nodes of one command.
-/

namespace Microstep

/-- The cost of a body: one, and the operand nodes and two for each of its commands. -/
def bodyCost (commands : List Command) : Nat :=
  1 + ((Command.occurrences 0 0 commands).map fun o => o.command.operandNodes + 2).sum

/-- The largest cost of the bodies of a program. -/
def Program.bodyBound (p : Program) : Nat :=
  ((p.table.flatMap (·.methods)).map fun m => bodyCost m.commands).max?.getD 0

/-- The work list holds the operand nodes, and the call of a call command. -/
theorem Command.length_workList_le (c : Command) :
    c.workList.length ≤ c.operandNodes + 1 := by
  rw [workList_eq, List.length_append, List.length_replicate, length_operandPaths]
  exact Nat.add_le_add_left c.calls_le _

/-- Of two sums the one is larger by what one summand is larger. -/
theorem sum_map_add_le {α : Type} {l : List α} {w w' : α → Nat} {x : α} {k : Nat} (hx : x ∈ l)
    (h : ∀ y ∈ l, w y ≤ w' y) (hk : w x + k ≤ w' x) : (l.map w).sum + k ≤ (l.map w').sum := by
  induction l with
  | nil => cases hx
  | cons a l ih =>
    have head := h a List.mem_cons_self
    have tail : ∀ y ∈ l, w y ≤ w' y := fun y hy => h y (List.mem_cons_of_mem a hy)
    simp only [List.map_cons, List.sum_cons]
    obtain rfl | hx := List.mem_cons.mp hx
    · have := List.sum_le_sum tail
      omega
    · have := ih hx tail
      omega

namespace Program

variable {p : Program} {type method : String} {position q : Position} {c : Command}
  {commands : List Command}

/-- The part of a body's cost that lies at `path` or behind it. -/
def ahead (commands : List Command) (path : Path) : Nat :=
  1 + ((Command.occurrences 0 0 commands).map fun o =>
    if (compare path o.path).isLE then o.command.operandNodes + 2 else 0).sum

theorem ahead_pos (commands : List Command) (path : Path) : 0 < ahead commands path :=
  Nat.le_add_right 1 _

theorem ahead_le (commands : List Command) (path : Path) :
    ahead commands path ≤ bodyCost commands := by
  refine Nat.add_le_add_left (List.sum_le_sum fun o _ => ?_) 1
  split <;> omega

/-- What is ahead pays for the command, and for what is ahead of a position behind it. -/
theorem ahead_add_le (h : p.commandAt position = .ok (some c)) :
    ∃ commands, p.body? position.type position.method = some commands ∧
      ∀ path, compare position.path path = .lt →
        ahead commands path + (c.operandNodes + 2) ≤ ahead commands position.path := by
  obtain ⟨commands, hb, ho⟩ := occurs_of_commandAt h
  refine ⟨commands, hb, fun path lt => ?_⟩
  rw [ahead, ahead, Nat.add_assoc]
  refine Nat.add_le_add_left (sum_map_add_le ho (fun o _ => ?_) ?_) 1
  · split
    · rename_i hle
      have hle' : (compare position.path o.path).isLE = true :=
        Std.TransCmp.isLE_trans (by rw [lt]; rfl) hle
      exact Nat.le_of_eq (if_pos hle').symm
    · exact Nat.zero_le _
  · rw [if_neg, if_pos]
    · exact Nat.le_of_eq (Nat.zero_add _)
    · rw [Std.compare_self]
      rfl
    · have swap : compare path position.path = (compare position.path path).swap :=
        Std.OrientedCmp.eq_swap
      rw [swap, lt]
      simp

theorem bodyCost_le_bodyBound (h : p.body? type method = some commands) :
    bodyCost commands ≤ p.bodyBound := by
  obtain ⟨t, ht, m, hm, -, rfl⟩ := mem_methods_of_body? h
  exact List.le_max?_getD_of_mem
    (List.mem_map.mpr ⟨m, List.mem_flatMap.mpr ⟨t, ht, hm⟩, rfl⟩)

end Program

/-- An activation keeps values only for nodes of one command. -/
theorem Frame.Keeps.size_le {f : Frame} {position : Position} {nodes : List ExprPath}
    (h : f.Keeps position nodes) : f.pending.size ≤ nodes.length := by
  have sub : f.pending.keys ⊆ nodes.map (Site.mk position) := fun site hsite => by
    obtain ⟨rfl, hpath⟩ := (h site).mp (Std.ExtTreeMap.mem_keys.mp hsite)
    exact List.mem_map.mpr ⟨site.path, hpath, rfl⟩
  have le := Std.ExtTreeMap.nodup_keys.length_le_of_subset sub
  rwa [Std.ExtTreeMap.length_keys, List.length_map] at le

end Microstep
