import Microstep.Program.Successor
import Microstep.Proofs.Addressing

/-!
# The successor of a command

A command that is done may end its block, and with it the blocks around that one, branch after
branch. The program then goes on at the deepest level at which there is a following command, and at
the end of the body if there is none.

* `Program.exists_commandAt_upTo`: at every level of a command's position stands a command;
* `Program.successor_of_next`: the next position, by the blocks that enclose the command;
* `Program.Successor.unique`: there is only one;
* `Program.next_iff_successor`: where a program goes on behind a command.
-/

namespace Microstep

theorem Path.following_concat (pre : Path) (level : Level) :
    Path.following (pre ++ [level]) = pre ++ [{ level with command := level.command + 1 }] := by
  induction pre with
  | nil => rfl
  | cons a pre ih =>
    cases pre with
    | nil => rfl
    | cons b pre => exact congrArg (a :: ·) ih

theorem Path.length_following (path : Path) : path.following.length = path.length := by
  induction path using List.reverseRecOn with
  | nil => rfl
  | append_singleton pre level => simp [following_concat]

namespace Position

variable {type method : String} {pre : Path} {l : Nat}

theorem upTo_last (pre : Path) (level : Level) :
    (⟨type, method, pre ++ [level]⟩ : Position).upTo pre.length =
      ⟨type, method, pre ++ [level]⟩ := by
  rw [upTo, List.take_of_length_le (by simp)]

theorem upTo_concat (level : Level) (hl : l < pre.length) :
    (⟨type, method, pre ++ [level]⟩ : Position).upTo l =
      (⟨type, method, pre⟩ : Position).upTo l := by
  rw [upTo, upTo, List.take_append_of_le_length hl]

theorem depth_concat (type method : String) (pre : Path) (level : Level) :
    (⟨type, method, pre ++ [level]⟩ : Position).depth = pre.length + 1 :=
  List.length_append

/-- A level is the last one or one above it. -/
theorem last_or_above {level : Level}
    (hl : l < (⟨type, method, pre ++ [level]⟩ : Position).depth) :
    l = pre.length ∨ l < pre.length := by
  rw [depth_concat] at hl
  exact Nat.eq_or_lt_of_le (Nat.le_of_lt_succ hl)

theorem depth_upTo (position : Position) (hl : l < position.depth) :
    (position.upTo l).depth = l + 1 :=
  List.length_take_of_le hl

end Position

namespace Program

variable {p : Program} {type method : String} {pre : Path} {level : Level} {position q r : Position}
  {c : Command} {l : Nat}

/-- At every level of the position of a command stands a command: at the last level its own, above
it those in whose branches it lies. -/
theorem exists_commandAt_upTo (h : p.commandAt position = .ok (some c)) (hl : l < position.depth) :
    ∃ d, p.commandAt (position.upTo l) = .ok (some d) := by
  obtain ⟨type, method, path⟩ := position
  induction path using List.reverseRecOn generalizing c with
  | nil => exact absurd hl (Nat.not_lt_zero l)
  | append_singleton pre level ih =>
    obtain rfl | hl := Position.last_or_above hl
    · rw [Position.upTo_last]
      exact ⟨c, h⟩
    · obtain ⟨place, hp, -⟩ := commandAt_eq_some_iff.mp h
      obtain ⟨d, -, hd, -⟩ := (locate_concat_iff (List.ne_nil_of_length_pos (by omega))).mp hp
      rw [Position.upTo_concat level hl]
      exact ih hd hl

theorem goesOn_last_iff {commands : List Command} {i : Nat}
    (h : p.locate ⟨type, method, pre ++ [level]⟩ = .ok ⟨commands, i⟩) :
    p.GoesOn ⟨type, method, pre ++ [level]⟩ pre.length ↔ i + 1 < commands.length := by
  rw [GoesOn, Position.upTo_last, h]
  constructor
  · rintro ⟨place, hp, lt⟩
    cases hp
    exact lt
  · exact fun lt => ⟨_, rfl, lt⟩

theorem goesOn_concat_iff (hl : l < pre.length) :
    p.GoesOn ⟨type, method, pre ++ [level]⟩ l ↔ p.GoesOn ⟨type, method, pre⟩ l := by
  rw [GoesOn, GoesOn, Position.upTo_concat level hl]

/-- Behind the last command of a branch the program goes on where it does behind the command that
has the branch. -/
theorem Successor.below (successor : p.Successor ⟨type, method, pre⟩ q)
    (ended : ¬ p.GoesOn ⟨type, method, pre ++ [level]⟩ pre.length) :
    p.Successor ⟨type, method, pre ++ [level]⟩ q := by
  have above : ∀ k < (⟨type, method, pre ++ [level]⟩ : Position).depth,
      p.GoesOn ⟨type, method, pre ++ [level]⟩ k → k < pre.length ∧
        p.GoesOn ⟨type, method, pre⟩ k := by
    intro k hk goesOn
    obtain rfl | hk := Position.last_or_above hk
    · exact absurd goesOn ended
    · exact ⟨hk, (goesOn_concat_iff hk).mp goesOn⟩
  -- the last level does not go on, so that the levels that do are the same in both positions
  cases successor with
  | within hl goesOn deepest =>
    rw [← Position.upTo_concat level hl]
    refine .within ?_ ((goesOn_concat_iff hl).mpr goesOn) fun k hlt hk goesOn => ?_
    · rw [Position.depth_concat]
      exact Nat.lt_succ_of_lt hl
    · obtain ⟨hk, goesOn⟩ := above k hk goesOn
      exact deepest k hlt hk goesOn
  | ending hb ended =>
    refine .ending hb fun k hk goesOn => ?_
    obtain ⟨hk, goesOn⟩ := above k hk goesOn
    exact ended k hk goesOn

/-- The next position is found from the inside: each block that ends is left for the one around it,
until one goes on or the body ends. -/
theorem successor_of_next (h : p.commandAt position = .ok (some c)) (hn : p.next position = .ok q) :
    p.Successor position q := by
  obtain ⟨type, method, path⟩ := position
  induction path using List.reverseRecOn generalizing c with
  | nil => exact absurd rfl (path_ne_nil h)
  | append_singleton pre level ih =>
    obtain ⟨block, i⟩ := level
    obtain ⟨⟨commands, j⟩, hl, hc⟩ := commandAt_eq_some_iff.mp h
    obtain rfl : j = i := index_of_locate hl
    obtain ⟨hj, -⟩ := List.getElem?_eq_some_iff.mp hc
    by_cases hlt : j + 1 < commands.length
    · have hq : q = ⟨type, method, Path.following (pre ++ [⟨block, j⟩])⟩ := by
        rw [Path.following_concat]
        exact Except.ok.inj (hn.symm.trans (next_within hl hlt))
      have hd := Position.depth_concat type method pre ⟨block, j⟩
      have within := Successor.within (hd ▸ Nat.lt_succ_self _) ((goesOn_last_iff hl).mpr hlt)
        fun k hk hk' => absurd hk' (by omega)
      rwa [Position.upTo_last, Position.following, ← hq] at within
    · have ended := (goesOn_last_iff hl).not.mpr hlt
      have hle : commands.length ≤ j + 1 := Nat.le_of_not_lt hlt
      cases pre with
      | nil =>
        obtain ⟨hb, body, hbody, he⟩ := locate_body_iff.mp hl
        cases he
        cases hb
        obtain rfl := Except.ok.inj (hn.symm.trans (next_end hl hle))
        rw [show j + 1 = commands.length from Nat.le_antisymm hj hle]
        refine .ending hbody fun k hk => ?_
        obtain rfl : k = 0 := Nat.lt_one_iff.mp hk
        exact ended
      | cons a pre =>
        have hp := List.cons_ne_nil a pre
        obtain ⟨d, branch, hd, -⟩ := (locate_concat_iff hp).mp hl
        rw [next_behind hl hle hp] at hn
        exact (ih hd hn).below ended

/-- There is one place to go on behind a position. -/
theorem Successor.unique (hq : p.Successor position q) (hr : p.Successor position r) : r = q := by
  cases hq with
  | @within l hl goesOn deepest =>
    cases hr with
    | @within k hk goesOn' deepest' =>
      obtain hlt | rfl | hlt := Nat.lt_trichotomy k l
      · exact absurd goesOn (deepest' l hlt hl)
      · rfl
      · exact absurd goesOn' (deepest k hlt hk)
    | ending hb ended => exact absurd goesOn (ended l hl)
  | ending hb ended =>
    cases hr with
    | within hk goesOn => exact absurd goesOn (ended _ hk)
    | ending hb' => cases hb.symm.trans hb'; rfl

theorem Successor.depth_le (h : p.commandAt position = .ok (some c))
    (successor : p.Successor position q) : q.depth ≤ position.depth := by
  cases successor with
  | within hl =>
    rw [Position.depth, Position.following, Path.length_following, ← Position.depth,
      Position.depth_upTo position hl]
    exact hl
  | ending => exact List.length_pos_iff.mpr (path_ne_nil h)

/-- Behind a command a program goes on in the same body: at the deepest level at which there is a
following command, or else at the end of the body. That is a later position and no deeper one, of a
command or of the end of the body. -/
theorem next_iff_successor (h : p.commandAt position = .ok (some c)) :
    (∀ l < position.depth, ∃ d, p.commandAt (position.upTo l) = .ok (some d)) ∧
    ∃ q, p.next position = .ok q ∧ (∀ r, p.Successor position r ↔ r = q) ∧
      q.type = position.type ∧ q.method = position.method ∧ q.depth ≤ position.depth ∧
      compare position q = .lt ∧
      ((∃ d, p.commandAt q = .ok (some d)) ∨
        p.commandAt q = .ok none ∧ ∃ body, p.body? position.type position.method = some body ∧
          q = { position with path := [⟨0, body.length⟩] }) := by
  refine ⟨fun l hl => exists_commandAt_upTo h hl, ?_⟩
  obtain ⟨q, hn, command?, hq⟩ := next_resolves h
  have successor := successor_of_next h hn
  obtain ⟨path, rfl⟩ := exists_path_of_next hn
  refine ⟨_, hn, fun r => ⟨successor.unique, fun hr => hr ▸ successor⟩, rfl, rfl,
    successor.depth_le h, lt_next h hn, ?_⟩
  cases command? with
  | some d => exact .inl ⟨d, hq⟩
  | none =>
    obtain ⟨body, hb⟩ := body?_of_commandAt h
    obtain rfl := (commandAt_eq_none_iff hb).mp hq
    exact .inr ⟨hq, body, hb, rfl⟩

/-- Behind the command that opens the door two branches end together, and the program goes on with
the last command of the body. -/
theorem next_iff_successor_doors :
    doors.commandAt ⟨"Door", "knock", [⟨0, 1⟩, ⟨1, 0⟩, ⟨1, 0⟩]⟩ =
        .ok (some (.assign (.field .self "open") (.const (.bool true)))) ∧
      doors.next ⟨"Door", "knock", [⟨0, 1⟩, ⟨1, 0⟩, ⟨1, 0⟩]⟩ =
        .ok ⟨"Door", "knock", [⟨0, 2⟩]⟩ ∧
      doors.Successor ⟨"Door", "knock", [⟨0, 1⟩, ⟨1, 0⟩, ⟨1, 0⟩]⟩ ⟨"Door", "knock", [⟨0, 2⟩]⟩ := by
  have opens : doors.commandAt ⟨"Door", "knock", [⟨0, 1⟩, ⟨1, 0⟩, ⟨1, 0⟩]⟩ =
      .ok (some (.assign (.field .self "open") (.const (.bool true)))) := rfl
  obtain ⟨-, q, hn, successor, -⟩ := next_iff_successor opens
  obtain rfl : q = ⟨"Door", "knock", [⟨0, 2⟩]⟩ :=
    Except.ok.inj (hn.symm.trans (by decide))
  exact ⟨opens, hn, (successor _).mpr rfl⟩

end Program

end Microstep
