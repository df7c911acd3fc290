import Microstep.Proofs.Execution
import Microstep.Proofs.Layout

/-!
# The order of positions

Within an activation a program only goes forward: the following command, the first command of a
branch and the end of a body all come behind the command that leads there. This is the order of the
source text, in which a conditional comes before the commands of its branches.

* `Path.lt_successor?`, `Program.lt_next`: what follows a command comes behind it;
* `Program.Marked.path_of_entry`: an entry marker stands only at the first position of a body;
* `State.Goes.lt`: a command is left for a position behind it.
-/

namespace Microstep

theorem Level.lt_of_command_lt {block i j : Nat} (h : i < j) :
    compare (⟨block, i⟩ : Level) ⟨block, j⟩ = .lt := by
  show (compare block block).then (compare i j) = .lt
  rw [Std.compare_self, Nat.compare_eq_lt.mpr h]
  rfl

namespace Path

variable {block : List Command} {path q : Path}

/-- What stands in a branch comes behind the command that has the branch. -/
theorem lt_append (path : Path) (level : Level) : compare path (path ++ [level]) = .lt := by
  induction path with
  | nil => exact List.compare_nil_cons
  | cons a path ih =>
    rw [List.cons_append, List.compare_cons_cons, Std.compare_self, ih]
    rfl

/-- The following command of a block comes behind all that stand in the branches of a command. -/
theorem lt_following (level : Level) (rest : Path) :
    compare (level :: rest) (following [level]) = .lt := by
  rw [following, List.compare_cons_cons, Level.lt_of_command_lt (Nat.lt_succ_self _)]
  rfl

theorem lt_successor? (h : successor? block path = some q) : compare path q = .lt := by
  induction path generalizing block q with
  | nil => cases h
  | cons level rest ih =>
    rw [successor?] at h
    split at h
    · rename_i inner hinner
      simp only [Option.bind_eq_bind, Option.bind_eq_some_iff] at hinner
      obtain ⟨c, -, l, -, branch, -, hinner⟩ := hinner
      cases h
      rw [List.compare_cons_cons, Std.compare_self, ih hinner]
      rfl
    · split at h
      · cases h
        exact lt_following level rest
      · cases h

theorem lt_nextPath (h : path ≠ []) : compare path (Program.nextPath block path) = .lt := by
  rw [Program.nextPath]
  split
  · rename_i hs
    exact lt_successor? hs
  · cases path with
    | nil => exact absurd rfl h
    | cons level rest => exact lt_following level rest

end Path

namespace Position

/-- Positions of one body are compared by their paths. -/
theorem compare_path (position : Position) (path : Path) :
    compare position { position with path } = compare position.path path := by
  show (compare position.type position.type).then
    ((compare position.method position.method).then (compare position.path path)) = _
  rw [Std.compare_self, Std.compare_self]
  rfl

theorem ne_of_lt {a b : Position} (h : compare a b = .lt) : a ≠ b := by
  rintro rfl
  rw [Std.compare_self] at h
  cases h

theorem lt_descend (position : Position) (block : Nat) :
    compare position (position.descend block) = .lt := by
  rw [descend, compare_path]
  exact Path.lt_append position.path _

end Position

/-! ## Entry markers -/

namespace Command

variable {c d : Command} {commands branch : List Command} {i block : Nat}

theorem all_getElem? (h : unmarkedAll commands = true) (i : Nat) :
    commands[i]?.all unmarked = true := by
  induction commands generalizing i with
  | nil => rfl
  | cons d rest ih =>
    rw [unmarkedAll, Bool.and_eq_true] at h
    cases i with
    | zero => exact h.1
    | succ i => exact ih h.2 i

theorem unmarkedAll_of_branch? (h : d.unmarked = true) (hb : d.branch? block = some branch) :
    unmarkedAll branch = true := by
  cases d with
  | cond condition thenBranch elseBranch =>
    rw [unmarked, Bool.and_eq_true] at h
    match block, hb with
    | 0, hb => cases hb; exact h.1
    | 1, hb =>
      obtain rfl : elseBranch = some branch := hb
      exact h.2
  | _ => cases hb

/-- A path that leads through a command without an entry marker leads to none. -/
theorem unmarked_of_follow {level : Level} {rest : Path} {place : Place}
    (h : commands[level.command]?.all unmarked = true)
    (hf : Path.follow commands (level :: rest) = .ok place) (hc : place.command? = some c) :
    c.unmarked = true := by
  induction rest generalizing commands level with
  | nil =>
    cases hf
    rw [show commands[level.command]? = some c from hc] at h
    exact h
  | cons inner rest ih =>
    obtain ⟨d, branch, hd, hb, hf⟩ := Path.follow_cons_iff.mp hf
    rw [hd] at h
    exact ih (all_getElem? (unmarkedAll_of_branch? h hb) _) hf

end Command

namespace Program

variable {p : Program} {position q : Position} {c : Command}

theorem path_ne_nil (h : p.commandAt position = .ok (some c)) : position.path ≠ [] := by
  obtain ⟨type, method, path⟩ := position
  rintro rfl
  obtain ⟨place, hl, -⟩ := commandAt_eq_some_iff.mp h
  cases hl

theorem exists_path_of_next (h : p.next position = .ok q) : ∃ path, q = { position with path } := by
  unfold next at h
  dsimp only at h
  split at h
  · cases h
    exact ⟨_, rfl⟩
  · cases h

theorem lt_next (h : p.commandAt position = .ok (some c)) (hn : p.next position = .ok q) :
    compare position q = .lt := by
  obtain ⟨place, hl, -⟩ := commandAt_eq_some_iff.mp h
  obtain ⟨body, -, -, hn'⟩ := next_eq hl
  cases hn.symm.trans hn'
  rw [Position.compare_path]
  exact Path.lt_nextPath (path_ne_nil h)

theorem bodyOf_cons_iff {type method : String} {level : Level} {rest : Path}
    {commands : List Command} : p.bodyOf ⟨type, method, level :: rest⟩ = .ok commands ↔
      level.block = 0 ∧ p.body? type method = some commands := by
  simp only [bodyOf]
  by_cases hl : level.block = 0
  · cases p.body? type method <;> simp [hl]
  · simp [hl]

/-- A position that is not malformed lies in a body. -/
theorem body?_of_commandAt {command? : Option Command} (h : p.commandAt position = .ok command?) :
    ∃ commands, p.body? position.type position.method = some commands := by
  obtain ⟨type, method, path⟩ := position
  rw [commandAt] at h
  split at h
  · cases h
  · rename_i place hl
    obtain ⟨commands, hb, -⟩ := bind_eq_ok_iff.mp hl
    cases path with
    | nil => cases hb
    | cons level rest => exact ⟨commands, (bodyOf_cons_iff.mp hb).2⟩

/-- The body of a command, and the path to it there. -/
theorem follow_of_commandAt (h : p.commandAt position = .ok (some c)) :
    ∃ commands level rest place, p.body? position.type position.method = some commands ∧
      position.path = level :: rest ∧ level.block = 0 ∧
      Path.follow commands (level :: rest) = .ok place ∧ place.command? = some c := by
  obtain ⟨type, method, path⟩ := position
  obtain ⟨place, hl, hc⟩ := commandAt_eq_some_iff.mp h
  obtain ⟨commands, hb, hf⟩ := bind_eq_ok_iff.mp hl
  cases path with
  | nil => cases hb
  | cons level rest =>
    obtain ⟨hlevel, hb⟩ := bodyOf_cons_iff.mp hb
    exact ⟨commands, level, rest, place, hb, rfl, hlevel, hf, hc⟩

/-- In a marked program an entry marker stands only at the first position of a body. -/
theorem Marked.path_of_entry (marked : p.Marked) (h : p.commandAt position = .ok (some .entry)) :
    position.path = [⟨0, 0⟩] := by
  obtain ⟨commands, ⟨block, i⟩, rest, place, hb, hpath, rfl, hf, hc⟩ := follow_of_commandAt h
  obtain ⟨body, rfl, unmarked⟩ := marked.of_body? hb
  rw [hpath]
  cases i with
  | zero =>
    cases rest with
    | nil => rfl
    | cons inner rest =>
      obtain ⟨d, branch, hd, hb, -⟩ := Path.follow_cons_iff.mp hf
      cases hd
      cases hb
  | succ i =>
    cases Command.unmarked_of_follow (Command.all_getElem? unmarked i) hf hc

/-- In a marked program a body starts with an entry marker. -/
theorem Marked.commandAt_entry (marked : p.Marked) {type method : String} {commands : List Command}
    (h : p.body? type method = some commands) :
    p.commandAt (.entry type method) = .ok (some .entry) := by
  obtain ⟨body, rfl, -⟩ := marked.of_body? h
  exact commandAt_eq_some_iff.mpr ⟨_, locate_body_iff.mpr ⟨rfl, _, h, rfl⟩, rfl⟩

end Program

namespace State

variable {p : Program} {position q : Position} {c : Command}

/-- A command is left for a position in the same body. -/
theorem Goes.exists_path (goes : Goes p c position q) : ∃ path, q = { position with path } := by
  cases goes with
  | entry entry => exact ⟨_, rfl⟩
  | next next => exact Program.exists_path_of_next next
  | branch branch? inside => exact ⟨_, rfl⟩

/-- A command is left for a position behind it. -/
theorem Goes.lt (marked : p.Marked) (h : p.commandAt position = .ok (some c))
    (goes : Goes p c position q) : compare position q = .lt := by
  cases goes with
  | entry entry =>
    subst entry
    rw [Position.afterEntry, Position.compare_path, marked.path_of_entry h]
    decide
  | next next => exact Program.lt_next h next
  | branch branch? inside => exact position.lt_descend _

end State

end Microstep
