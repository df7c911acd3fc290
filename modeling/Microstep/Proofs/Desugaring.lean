import Mathlib.Data.List.Induction
import Microstep.Proofs.Replacement

/-!
# Explicit control flow

Nothing is lost by leaving out the return at the end of a body, or the branch of a conditional that
does nothing. A table and its explicit form are accepted alike, and their programs have the same
runs, step by step. Types, their order and their members are the same in both, and so are the
positions: a command in its explicit form stands where the command itself stands, and the added
return stands at the end of the body.

* `Program.explicit`: a program with all methods written out;
* `Program.commandAt_explicit`, `Program.next_explicit`: its commands, and the positions behind
  them;
* `Program.replaces_explicit`: it can stand in for the program;
* `State.explicit_lockstep`: the runs of both.
-/

namespace Microstep

/-! ## Blocks -/

namespace Command

variable {c : Command} {block i : Nat} {commands branch : List Command}

@[simp]
theorem length_explicitAll (commands : List Command) :
    (explicitAll commands).length = commands.length := by
  rw [explicitAll_eq_map, List.length_map]

/-- What is put behind a block does not move its commands. -/
theorem getElem?_explicitAll (h : commands[i]? = some c) (tail : List Command) :
    (explicitAll commands ++ tail)[i]? = some c.explicit := by
  rw [explicitAll_eq_map, List.getElem?_append_left, List.getElem?_map, h]
  · rfl
  · simpa using (List.getElem?_eq_some_iff.mp h).1

theorem branch?_explicit (h : c.branch? block = some branch) :
    c.explicit.branch? block = some (explicitAll branch) := by
  cases c with
  | cond condition thenBranch elseBranch =>
    match block, h with
    | 0, h =>
      cases h
      rfl
    | 1, h =>
      obtain rfl : elseBranch = some branch := h
      rfl
  | _ => cases h

end Command

/-! ## Types -/

namespace TypeDef

variable (t : TypeDef)

@[simp]
theorem name_explicit : t.explicit.name = t.name := rfl

@[simp]
theorem parent_explicit : t.explicit.parent = t.parent := rfl

@[simp]
theorem fields_explicit : t.explicit.fields = t.fields := rfl

theorem methodNames_explicit : t.explicit.methods.map (·.name) = t.methods.map (·.name) := by
  simp [explicit, MethodDef.explicit]

theorem method?_explicit (method : String) :
    t.explicit.method? method = (t.method? method).map MethodDef.explicit :=
  List.find?_map

end TypeDef

namespace TypeTable

variable {table : TypeTable} {name : String}

theorem type?_explicit : table.explicit.type? name = (table.type? name).map TypeDef.explicit :=
  List.find?_map

theorem climb_explicit (start : String) (budget : Nat) :
    table.explicit.climb start budget name =
      (table.climb start budget name).map (·.map TypeDef.explicit) := by
  induction budget generalizing name with
  | zero => rfl
  | succ budget ih =>
    rw [climb, climb, type?_explicit]
    cases table.type? name with
    | none => rfl
    | some t =>
      simp only [Option.map_some, TypeDef.parent_explicit]
      cases t.parent with
      | none => rfl
      | some parent =>
        simp only [ih]
        cases table.climb start budget parent <;> rfl

theorem ancestry_explicit :
    table.explicit.ancestry name = (table.ancestry name).map (·.map TypeDef.explicit) := by
  rw [ancestry, ancestry, climb_explicit, explicit, List.length_map]

theorem duplicate?_explicit (seen : List String) :
    duplicate? seen table.explicit = duplicate? seen table := by
  induction table generalizing seen with
  | nil => rfl
  | cons t rest ih =>
    have tail : TypeTable.explicit (t :: rest) = t.explicit :: TypeTable.explicit rest := rfl
    simp only [tail, duplicate?, TypeDef.name_explicit, TypeDef.methodNames_explicit, ih]

theorem ancestryFault?_explicit : table.explicit.ancestryFault? = table.ancestryFault? := by
  rw [ancestryFault?, ancestryFault?]
  refine List.findSome?_map.trans (congrArg (List.findSome? · table) (funext fun t => ?_))
  simp only [Function.comp_apply, TypeDef.name_explicit, ancestry_explicit]
  cases table.ancestry t.name <;> rfl

/-- A table and its explicit form have the same fault. -/
theorem fault?_explicit : table.explicit.fault? = table.fault? := by
  rw [fault?, fault?, duplicate?_explicit, ancestryFault?_explicit]

end TypeTable

/-- A found method, written out. -/
def Implementation.explicit (found : Implementation) : Implementation :=
  ⟨found.owner.explicit, found.method.explicit⟩

namespace Program

variable {p : Program} {type method : String} {arity : Nat} {position : Position} {c : Command}

/-- A program with all methods written out. -/
def explicit (p : Program) : Program :=
  ⟨p.table.explicit, TypeTable.fault?_explicit.trans p.fault?_eq_none⟩

theorem ancestry_explicit :
    p.explicit.ancestry type = (p.ancestry type).map (·.map TypeDef.explicit) :=
  TypeTable.ancestry_explicit

theorem fields_explicit : p.explicit.fields type = p.fields type := by
  rw [fields, fields, ancestry_explicit]
  cases p.ancestry type with
  | error e => rfl
  | ok types => simp [Except.map, ← List.map_reverse, List.flatMap_map]

theorem instantiate_explicit : p.explicit.instantiate type = p.instantiate type := by
  rw [instantiate, instantiate, fields_explicit]

theorem implementations_explicit (types : List TypeDef) (method : String) :
    implementations (types.map TypeDef.explicit) method =
      (implementations types method).map Implementation.explicit := by
  rw [implementations, implementations, List.filterMap_map, List.map_filterMap]
  refine congrArg (List.filterMap · types) (funext fun t => ?_)
  simp only [Function.comp_apply, TypeDef.method?_explicit]
  cases t.method? method <;> rfl

theorem dispatch_explicit :
    p.explicit.dispatch type method arity =
      (p.dispatch type method arity).map Implementation.explicit := by
  rw [dispatch, dispatch, ancestry_explicit]
  cases p.ancestry type with
  | error e => rfl
  | ok types =>
    have arities : (fun found : Implementation => decide (found.method.arity = arity)) ∘
        Implementation.explicit = fun found => decide (found.method.arity = arity) := rfl
    simp only [Except.map, ok_bind, implementations_explicit, List.find?_map, arities]
    cases (implementations types method).find? (·.method.arity = arity) with
    | some found => rfl
    | none => cases implementations types method <;> rfl

/-- A body in its explicit form. -/
theorem body?_explicit :
    p.explicit.body? type method =
      (p.body? type method).map fun body => Command.explicitAll body ++ [.ret none] := by
  have table : p.explicit.table = p.table.explicit := rfl
  rw [body?, body?, table, TypeTable.type?_explicit]
  cases p.table.type? type with
  | none => rfl
  | some t =>
    simp only [Option.map_some, Option.bind_eq_bind, Option.bind_some, TypeDef.method?_explicit]
    cases t.method? method <;> rfl

/-! ## Positions -/

/-- What is added at the end of the block at a path: to a body, the return. -/
def added (pre : Path) : List Command := if pre = [] then [.ret none] else []

/-- The explicit form of a block is found at the same position. -/
theorem locate_explicit {pre : Path} {l : Level} {place : Place}
    (h : p.locate ⟨type, method, pre ++ [l]⟩ = .ok place) :
    p.explicit.locate ⟨type, method, pre ++ [l]⟩ =
      .ok ⟨Command.explicitAll place.block ++ added pre, place.index⟩ := by
  induction pre using List.reverseRec generalizing l place with
  | nil =>
    obtain ⟨hl, body, hb, rfl⟩ := locate_body_iff.mp h
    refine locate_body_iff.mpr ⟨hl, _, ?_, rfl⟩
    rw [body?_explicit, hb]
    rfl
  | append_singleton outer inner ih =>
    have hp := List.append_ne_nil_of_right_ne_nil outer (List.cons_ne_nil inner [])
    obtain ⟨d, branch, hd, hb, rfl⟩ := (locate_concat_iff hp).mp h
    obtain ⟨place, hl, hc⟩ := commandAt_eq_some_iff.mp hd
    have hd' := commandAt_eq_some_iff.mpr ⟨_, ih hl, Command.getElem?_explicitAll hc _⟩
    rw [added, if_neg hp, List.append_nil]
    exact (locate_concat_iff hp).mpr ⟨_, _, hd', Command.branch?_explicit hb, rfl⟩

theorem exists_concat_of_commandAt {command? : Option Command}
    (h : p.commandAt position = .ok command?) :
    ∃ type method pre l, position = ⟨type, method, pre ++ [l]⟩ := by
  obtain ⟨type, method, path⟩ := position
  have hp : path ≠ [] := by
    rintro rfl
    cases h
  exact ⟨type, method, path.dropLast, path.getLast hp, by rw [List.dropLast_concat_getLast]⟩

/-- A command stands in its explicit form where it stands itself. -/
theorem commandAt_explicit (h : p.commandAt position = .ok (some c)) :
    p.explicit.commandAt position = .ok (some c.explicit) := by
  obtain ⟨type, method, pre, l, rfl⟩ := exists_concat_of_commandAt h
  obtain ⟨place, hl, hc⟩ := commandAt_eq_some_iff.mp h
  exact commandAt_eq_some_iff.mpr ⟨_, locate_explicit hl, Command.getElem?_explicitAll hc _⟩

/-- The return stands where the body has ended. -/
theorem commandAt_explicit_of_end (h : p.commandAt position = .ok none) :
    p.explicit.commandAt position = .ok (some (.ret none)) := by
  obtain ⟨type, method, pre, l, rfl⟩ := exists_concat_of_commandAt h
  rw [commandAt] at h
  split at h
  · cases h
  · rename_i place hl
    split at h
    · cases h
    · split at h
      · rename_i ended
        obtain ⟨index, depth⟩ := ended
        obtain rfl : pre = [] := by simpa [Position.depth] using depth
        refine commandAt_eq_some_iff.mpr ⟨_, locate_explicit hl, ?_⟩
        simp [Place.command?, added, index, Command.explicitAll_eq_map]
      · cases h

/-- The explicit form of a command is followed by the same position. -/
theorem next_explicit (h : p.commandAt position = .ok (some c)) :
    p.explicit.next position = p.next position := by
  obtain ⟨type, method, pre, ⟨block, i⟩, rfl⟩ := exists_concat_of_commandAt h
  induction pre using List.reverseRec generalizing block i c with
  | nil =>
    obtain ⟨⟨commands, j⟩, hl, hc⟩ := commandAt_eq_some_iff.mp h
    obtain rfl : j = i := index_of_locate hl
    have hj : j < commands.length := (List.getElem?_eq_some_iff.mp hc).1
    have hl' : p.explicit.locate ⟨type, method, [] ++ [⟨block, j⟩]⟩ =
      .ok ⟨Command.explicitAll commands ++ [.ret none], j⟩ := locate_explicit hl
    -- The explicit body goes on where the body ends: there stands the return.
    rw [next_within hl' (by simpa using hj)]
    by_cases hlt : j + 1 < commands.length
    · exact (next_within hl hlt).symm
    · exact (next_end hl (by omega)).symm
  | append_singleton outer inner ih =>
    have hp := List.append_ne_nil_of_right_ne_nil outer (List.cons_ne_nil inner [])
    obtain ⟨⟨commands, j⟩, hl, hc⟩ := commandAt_eq_some_iff.mp h
    obtain rfl : j = i := index_of_locate hl
    have hl' := locate_explicit hl
    rw [added, if_neg hp, List.append_nil] at hl'
    by_cases hlt : j + 1 < commands.length
    · rw [next_within hl hlt, next_within hl' (by simpa using hlt)]
    · rw [next_behind hl (by omega) hp, next_behind hl' (by simpa using Nat.le_of_not_lt hlt) hp]
      obtain ⟨d, branch, hd, -⟩ := (locate_concat_iff hp).mp hl
      exact ih inner.block inner.command hd

/-- A program in its explicit form can stand in for the program. -/
theorem replaces_explicit (p : Program) : p.Replaces (fun _ => False) p.explicit where
  instantiate _ := .inl instantiate_explicit
  dispatch type method arity := .inl (by
    rw [dispatch_explicit]
    cases p.dispatch type method arity <;> rfl)
  command _ c? h := by
    cases c? with
    | none => exact ⟨_, commandAt_explicit_of_end h, .inl rfl⟩
    | some c => exact ⟨_, commandAt_explicit h, .inr rfl⟩
  next _ _ h := next_explicit h

end Program

/-- Leaving out the return at the end of a body, or a branch that does nothing, changes no run. The
explicit form of a table is accepted if the table is, every entry starts in the same state or fails
with the same error, and so does every number of steps. -/
theorem State.explicit_lockstep {table : TypeTable} {p : Program}
    (accepted : Program.ofTypes table = .ok p) :
    ∃ q, Program.ofTypes table.explicit = .ok q ∧ ∀ type method,
      State.start q type method = State.start p type method ∧
      ∀ s₀, State.start p type method = .ok s₀ → ∀ n, s₀.iterate q n = s₀.iterate p n := by
  obtain rfl := Program.ofTypes_eq_ok accepted
  have replaces := p.replaces_explicit
  refine ⟨p.explicit, Program.ofTypes_table p.explicit, fun type method =>
    ⟨(start_same replaces type method).eq fun _ => id, fun s₀ start n => ?_⟩⟩
  exact (iterate_same replaces (start_valid start) n).eq fun _ => id

/-- The counter with an explicit return and an explicit branch has the same result after as many
steps. -/
theorem State.explicit_lockstep_counter :
    ∃ q : Program, ∃ s₀ s : State, Program.ofTypes Program.counter.table = .ok .counter ∧
      Program.ofTypes Program.counter.table.explicit = .ok q ∧
      State.start q "Main" "main" = .ok s₀ ∧ s₀.iterate q 32 = .ok s ∧
      s.result? = some (.int 3) := by
  have run : ((State.start .counter "Main" "main").bind (·.iterate .counter 32)).toOption.map
      State.result? = some (some (.int 3)) := by decide +kernel
  obtain ⟨s₀, s, hs₀, hs, result⟩ := exists_of_view run
  have accepted := Program.counter.ofTypes_table
  obtain ⟨q, hq, lockstep⟩ := explicit_lockstep accepted
  obtain ⟨start, steps⟩ := lockstep "Main" "main"
  exact ⟨q, s₀, s, accepted, hq, start.trans hs₀, (steps s₀ hs₀ 32).trans hs, result⟩

end Microstep
