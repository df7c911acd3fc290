import Microstep.Proofs.Acceptance
import Microstep.Proofs.PositionOrder
import Microstep.Proofs.Replacement

/-!
# Larger tables

A run depends only on the types that it comes across by name. In a table that has all definitions of
another one, in any order and among others, every type of that one has the same definition, the same
ancestry and so the same members, and the same bodies hold the same commands. Only a name that the
smaller table does not define may get a meaning, so a run that fails for such a name may go on.

* `TypeTable.Lineage.mono`: a lineage does not depend on where in a table the types stand;
* `Program.Extends`: all definitions of one program are those of another one;
* `Program.Extends.replaces`: the larger program can stand in for the smaller one;
* `State.extension_preserves_runs`: their runs.
-/

namespace Microstep

/-- The error is that a type is not defined. -/
def Error.IsUnknownType (e : Error) : Prop := ∃ name, e = .unknownType name

/-! ## Types -/

/-- A lineage does not depend on where in a table its types stand, or on the other types. -/
theorem TypeTable.Lineage.mono {a b : TypeTable} {t : TypeDef} {types : List TypeDef}
    (h : a.Lineage t types) (larger : ∀ t ∈ a, t ∈ b) : b.Lineage t types := by
  induction h with
  | root defined parent => exact .root (larger _ defined) parent
  | child defined parent above ih => exact .child (larger _ defined) parent ih

namespace Program

variable {p q : Program} {type method name : String} {t : TypeDef} {position : Position}

/-- The table of `q` has all definitions of `p`. -/
def Extends (q p : Program) : Prop := ∀ t ∈ p.table, t ∈ q.table

theorem Extends.type? (h : q.Extends p) (ht : p.table.type? name = some t) :
    q.table.type? name = some t := by
  rw [← TypeTable.name_of_type? ht]
  exact type?_of_mem_table (h t (List.mem_of_find?_eq_some ht))

theorem Extends.ancestry (h : q.Extends p) (type : String) :
    SameUnless Error.IsUnknownType (p.ancestry type) (q.ancestry type) := by
  cases ha : p.ancestry type with
  | error e =>
    obtain ⟨-, rfl⟩ := ancestry_eq_error ha
    exact .excuse ⟨type, rfl⟩
  | ok types =>
    obtain ⟨t, ht, lineage⟩ := TypeTable.lineage_of_climb ha
    have above : q.ancestry t.name = .ok types :=
      TypeTable.ancestry_of_lineage q.distinct.types (lineage.mono h)
    rw [← TypeTable.name_of_type? ht, above]
    exact .refl _

theorem Extends.instantiate (h : q.Extends p) (type : String) :
    SameUnless Error.IsUnknownType (p.instantiate type) (q.instantiate type) :=
  ((h.ancestry type).bind fun _ _ => .refl _).bind fun _ _ => .refl _

theorem Extends.dispatch (h : q.Extends p) (type method : String) (arity : Nat) :
    SameUnless Error.IsUnknownType (p.dispatch type method arity) (q.dispatch type method arity) :=
  (h.ancestry type).bind fun _ _ => .refl _

/-! ## Positions -/

theorem Extends.body? {body : List Command} (h : q.Extends p)
    (hb : p.body? type method = some body) : q.body? type method = some body := by
  obtain ⟨t, ht, hb⟩ := Option.bind_eq_some_iff.mp hb
  exact Option.bind_eq_some_iff.mpr ⟨t, h.type? ht, hb⟩

theorem Extends.bodyOf {body : List Command} (h : q.Extends p)
    (hb : p.bodyOf position = .ok body) : q.bodyOf position = .ok body := by
  obtain ⟨type, method, path⟩ := position
  cases path with
  | nil => cases hb
  | cons level path =>
    obtain ⟨hl, hb⟩ := bodyOf_cons_iff.mp hb
    exact bodyOf_cons_iff.mpr ⟨hl, h.body? hb⟩

theorem Extends.locate {place : Place} (h : q.Extends p) (hl : p.locate position = .ok place) :
    q.locate position = .ok place := by
  obtain ⟨body, hb, hf⟩ := bind_eq_ok_iff.mp hl
  exact bind_eq_ok_iff.mpr ⟨body, h.bodyOf hb, hf⟩

theorem Extends.commandAt {c? : Option Command} (h : q.Extends p)
    (hc : p.commandAt position = .ok c?) : q.commandAt position = .ok c? := by
  unfold Program.commandAt at hc ⊢
  cases hl : p.locate position with
  | error fault =>
    rw [hl] at hc
    cases hc
  | ok place =>
    rw [hl] at hc
    rw [h.locate hl]
    exact hc

theorem Extends.next {c : Command} (h : q.Extends p)
    (hc : p.commandAt position = .ok (some c)) : q.next position = p.next position := by
  obtain ⟨place, hl, -⟩ := commandAt_eq_some_iff.mp hc
  obtain ⟨body, hb, -, hn⟩ := next_eq hl
  obtain ⟨body', hb', -, hn'⟩ := next_eq (h.locate hl)
  cases (h.bodyOf hb).symm.trans hb'
  rw [hn, hn']

/-- A program with more definitions can stand in for the program. -/
theorem Extends.replaces (h : q.Extends p) : p.Replaces Error.IsUnknownType q where
  instantiate := h.instantiate
  dispatch type method arity := (h.dispatch type method arity).map _
  command _ c? hc := ⟨c?, h.commandAt hc, .inl rfl⟩
  next _ _ hc := h.next hc

/-- The counter among other types, and in another order. -/
def largerCounter : Program where
  table := ⟨"Gauge", some "Counter", [⟨"limit", .int⟩], []⟩ :: Program.counter.table.reverse
  fault?_eq_none := by decide

end Program

namespace State

/-- Runs do not depend on the order of types, nor on types that they do not come across. With all
definitions of a table, in any order and among others, a run starts in the same state and comes to
the same states, and it fails with the same errors, unless the error is that a type is not
defined. -/
theorem extension_preserves_runs {a b : TypeTable} {p q : Program}
    (accepted : Program.ofTypes a = .ok p) (accepted' : Program.ofTypes b = .ok q)
    (larger : ∀ t ∈ a, t ∈ b) {type method : String} {s₀ : State}
    (start : State.start p type method = .ok s₀) :
    State.start q type method = .ok s₀ ∧ ∀ n s, s₀.iterate p n = .ok s →
      s₀.iterate q n = .ok s ∧ ∀ e, s.advance p = .error e → (∀ name, e ≠ .unknownType name) →
        s.advance q = .error e := by
  obtain rfl := Program.ofTypes_eq_ok accepted
  obtain rfl := Program.ofTypes_eq_ok accepted'
  have extends_p : q.Extends p := larger
  have replaces := extends_p.replaces
  have valid := start_valid start
  refine ⟨(start_same replaces type method).of_ok start, fun n s run => ?_⟩
  refine ⟨(iterate_same replaces valid n).of_ok run, fun e failed known => ?_⟩
  exact (advance_same replaces (iterate_valid valid run)).of_error failed fun ⟨name, unknown⟩ =>
    known name unknown

/-- In the larger table the counter comes to its end with the same result. -/
theorem extension_preserves_runs_counter :
    ∃ s₀ s : State, Program.ofTypes Program.counter.table = .ok .counter ∧
      Program.ofTypes Program.largerCounter.table = .ok .largerCounter ∧
      State.start .counter "Main" "main" = .ok s₀ ∧
      State.start .largerCounter "Main" "main" = .ok s₀ ∧ s₀.iterate .largerCounter 32 = .ok s ∧
      s.result? = some (.int 3) ∧ s.advance .largerCounter = .error .programFinished := by
  have run : ((State.start .counter "Main" "main").bind (·.iterate .counter 32)).toOption.map
      (fun s => (s.isFinished, s.result?)) = some (true, some (.int 3)) := by decide +kernel
  obtain ⟨s₀, s, hs₀, hs, h⟩ := exists_of_view run
  obtain ⟨finished, result⟩ := Prod.mk.inj h
  have accepted := Program.counter.ofTypes_table
  have accepted' := Program.largerCounter.ofTypes_table
  obtain ⟨hs₀', runs⟩ := extension_preserves_runs accepted accepted'
    (fun t ht => List.mem_cons_of_mem _ (List.mem_reverse.mpr ht)) hs₀
  obtain ⟨hs', fails⟩ := runs 32 s hs
  exact ⟨s₀, s, accepted, accepted', hs₀, hs₀', hs', result,
    fails _ (advance_of_finished finished) nofun⟩

end State

end Microstep
