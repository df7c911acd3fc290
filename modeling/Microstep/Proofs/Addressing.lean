import Microstep.Proofs.Dispatch
import Microstep.Proofs.Occurrence

/-!
# Positions as addresses

Every command of a body has one position, and every position is that of a command, or of the end of
a body, or of nothing. The order of positions is that of the source text, in which a conditional
comes before its branches and these before the command that follows it.

* `Occurrence.Before`, `Command.pairwise_occurrences`: the commands of a block are listed in the
  order of their paths;
* `Program.body?_eq_some_iff`: the bodies of a program;
* `Program.Enumerates`, `Program.enumerates_body`: the positions of a body and its commands;
* `Program.positions_enumerate`: all positions of a program.
-/

namespace Microstep

/-- The path of the one comes before that of the other. -/
def Occurrence.Before (o o' : Occurrence) : Prop := compare o.path o'.path = .lt

/-! ## The order of the source text -/

namespace Command

variable {c d : Command} {commands : List Command} {block index : Nat}

theorem before_below {o o' : Occurrence} (level : Level) (h : o.Before o') :
    (o.below level).Before (o'.below level) := by
  show compare (level :: o.path) (level :: o'.path) = .lt
  rw [List.compare_cons_cons, Std.compare_self]
  exact h

/-- A command comes before those in its branches. -/
theorem before_inner {o : Occurrence} (ho : o ∈ d.inner) (level : Level) :
    Occurrence.Before ⟨[level], c⟩ (o.below level) := by
  obtain ⟨path, _⟩ := o
  cases path with
  | nil => exact absurd ho nil_not_mem_inner
  | cons inner rest =>
    show compare [level] (level :: inner :: rest) = .lt
    rw [List.compare_cons_cons, Std.compare_self]
    rfl

/-- What stands at lower levels comes before. -/
theorem before_of_lt {o o' : Occurrence} {level level' : Level} {rest rest' : Path}
    (ho : o.path = level :: rest) (ho' : o'.path = level' :: rest')
    (lt : compare level level' = .lt) : o.Before o' := by
  rw [Occurrence.Before, ho, ho', List.compare_cons_cons, lt]
  rfl

theorem exists_level {o : Occurrence} (ho : o ∈ occurrences block index commands) :
    ∃ i rest, o.path = ⟨block, index + i⟩ :: rest := by
  obtain ⟨i, -, rest, -, hpath, -⟩ := mem_occurrences_iff.mp ho
  exact ⟨i, rest, hpath⟩

mutual

theorem pairwise_inner (c : Command) : c.inner.Pairwise Occurrence.Before := by
  cases c with
  | cond condition thenBranch elseBranch =>
    rw [inner, List.pairwise_append]
    refine ⟨pairwise_occurrences 0 0 thenBranch, pairwise_innerElse elseBranch, ?_⟩
    intro o ho o' ho'
    cases elseBranch with
    | none => cases ho'
    | some branch =>
      obtain ⟨i, rest, hpath⟩ := exists_level ho
      have ho' : o' ∈ occurrences 1 0 branch := ho'
      obtain ⟨j, rest', hpath'⟩ := exists_level ho'
      exact before_of_lt hpath hpath' rfl
  | entry | assign | call | ret => exact .nil

theorem pairwise_innerElse (branch : Option (List Command)) :
    (innerElse branch).Pairwise Occurrence.Before := by
  cases branch with
  | none => exact .nil
  | some branch => exact pairwise_occurrences 1 0 branch

/-- The commands of a block are listed in the order of their paths. -/
theorem pairwise_occurrences (block index : Nat) (commands : List Command) :
    (occurrences block index commands).Pairwise Occurrence.Before := by
  cases commands with
  | nil => exact .nil
  | cons c rest =>
    have behind : ∀ o ∈ occurrences block (index + 1) rest, ∀ o' : Occurrence, ∀ tail,
        o'.path = ⟨block, index⟩ :: tail → o'.Before o := by
      intro o ho o' tail hpath'
      obtain ⟨i, tail', hpath⟩ := exists_level ho
      exact before_of_lt hpath' hpath (Level.lt_of_command_lt (by omega))
    rw [occurrences, List.cons_append, List.pairwise_cons, List.pairwise_append]
    refine ⟨fun o ho => ?_, ?_, pairwise_occurrences block (index + 1) rest, ?_⟩
    · obtain ho | ho := List.mem_append.mp ho
      · obtain ⟨o', ho', rfl⟩ := List.mem_map.mp ho
        exact before_inner ho' _
      · exact behind o ho _ [] rfl
    · exact List.Pairwise.map _ (fun _ _ => before_below _) (pairwise_inner c)
    · intro o ho o' ho'
      obtain ⟨o, -, rfl⟩ := List.mem_map.mp ho
      exact behind o' ho' _ o.path rfl

end

end Command

/-- The element `x` stands in the list before `y`. -/
def Precedes {α : Type} (xs : List α) (x y : α) : Prop :=
  ∃ i j : Nat, i < j ∧ xs[i]? = some x ∧ xs[j]? = some y

/-- In a list that is sorted by a key, the order of the keys is that of the indices. -/
theorem compare_eq_lt_iff {α β : Type} [Ord β] [Std.TransOrd β] {key : α → β} {xs : List α}
    (sorted : xs.Pairwise fun x y => compare (key x) (key y) = .lt) {i j : Nat} {x y : α}
    (hx : xs[i]? = some x) (hy : xs[j]? = some y) :
    compare (key x) (key y) = .lt ↔ i < j := by
  obtain ⟨hi, rfl⟩ := List.getElem?_eq_some_iff.mp hx
  obtain ⟨hj, rfl⟩ := List.getElem?_eq_some_iff.mp hy
  have before := List.pairwise_iff_getElem.mp sorted
  refine ⟨fun lt => ?_, before i j hi hj⟩
  by_contra hle
  obtain rfl | hlt := Nat.eq_or_lt_of_le (Nat.le_of_not_lt hle)
  · rw [Std.compare_self] at lt
    cases lt
  · exact Std.OrientedCmp.not_lt_of_lt lt (before j i hj hi hlt)

namespace Program

variable {p : Program} {t : TypeDef} {m : MethodDef} {type method : String} {position : Position}
  {commands : List Command} {path path' : Path} {c c' : Command} {e : Error}

/-! ## The positions of a body -/

/-- The bodies of a program are those of the methods that its types declare. -/
theorem body?_eq_some_iff : p.body? type method = some commands ↔
    ∃ t ∈ p.table, ∃ m ∈ t.methods, (t.name = type ∧ m.name = method) ∧ m.commands = commands := by
  refine ⟨mem_methods_of_body?, ?_⟩
  rintro ⟨t, ht, m, hm, ⟨rfl, rfl⟩, rfl⟩
  have found := TypeDef.Declares.found ⟨hm, rfl⟩ (p.distinct.methods t ht)
  simp [body?, type?_of_mem_table ht, found]

theorem commandAt_iff_occurs (hb : p.body? type method = some commands) :
    p.commandAt ⟨type, method, path⟩ = .ok (some c) ↔
      ⟨path, c⟩ ∈ Command.occurrences 0 0 commands := by
  constructor
  · intro h
    obtain ⟨commands', hb', occurs⟩ := occurs_of_commandAt h
    cases hb.symm.trans hb'
    exact occurs
  · intro occurs
    obtain ⟨hblock, place, hf, hc⟩ := Command.mem_occurrences_iff_follow.mp occurs
    cases path with
    | nil => cases hblock
    | cons level rest =>
      have hbody : p.bodyOf ⟨type, method, level :: rest⟩ = .ok commands :=
        bodyOf_cons_iff.mpr ⟨Option.some.inj hblock, hb⟩
      exact commandAt_eq_some_iff.mpr ⟨place, bind_eq_ok_iff.mpr ⟨commands, hbody, hf⟩, hc⟩

theorem commandAt_eq_none_iff (hb : p.body? type method = some commands) :
    p.commandAt ⟨type, method, path⟩ = .ok none ↔ path = [⟨0, commands.length⟩] := by
  constructor
  · intro h
    unfold commandAt at h
    split at h
    · cases h
    · rename_i place hl
      split at h
      · cases h
      · split at h
        · rename_i ended
          obtain ⟨index, depth⟩ := ended
          obtain ⟨⟨block, i⟩, rfl⟩ := List.length_eq_one_iff.mp depth
          obtain ⟨rfl, body, hb', rfl⟩ := locate_body_iff.mp hl
          cases hb.symm.trans hb'
          obtain rfl : i = commands.length := index
          rfl
        · cases h
  · rintro rfl
    exact end_of_body hb

theorem commandAt_eq_error (h : p.commandAt position = .error e) :
    ∃ reason, e = .malformedPosition position reason := by
  unfold commandAt at h
  split at h
  · cases h
    exact ⟨_, rfl⟩
  · split at h
    · cases h
    · split at h
      · cases h
      · cases h
        exact ⟨_, rfl⟩

/-- The positions of a body, by its commands in the order of the source text. -/
structure Enumerates (p : Program) (type method : String) (commands : List Command) : Prop where
  command : ∀ path c, p.commandAt ⟨type, method, path⟩ = .ok (some c) ↔
    ⟨path, c⟩ ∈ Command.occurrences 0 0 commands
  ending : ∀ path, p.commandAt ⟨type, method, path⟩ = .ok none ↔ path = [⟨0, commands.length⟩]
  malformed : ∀ path, path ≠ [⟨0, commands.length⟩] →
    (∀ c, ⟨path, c⟩ ∉ Command.occurrences 0 0 commands) →
      ∃ reason, p.commandAt ⟨type, method, path⟩ =
        .error (.malformedPosition ⟨type, method, path⟩ reason)
  distinct : ((Command.occurrences 0 0 commands).map (·.path)).Nodup
  increasing : (Command.occurrences 0 0 commands).Pairwise fun o o' =>
    compare (⟨type, method, o.path⟩ : Position) ⟨type, method, o'.path⟩ = .lt
  /-- Of two commands the one with the lesser position comes first. -/
  order : ∀ path path' c c', p.commandAt ⟨type, method, path⟩ = .ok (some c) →
    p.commandAt ⟨type, method, path'⟩ = .ok (some c') →
      (compare (⟨type, method, path⟩ : Position) ⟨type, method, path'⟩ = .lt ↔
        Precedes (Command.occurrences 0 0 commands) ⟨path, c⟩ ⟨path', c'⟩)

theorem increasing_positions (type method : String) (commands : List Command) :
    (Command.occurrences 0 0 commands).Pairwise fun o o' =>
      compare (⟨type, method, o.path⟩ : Position) ⟨type, method, o'.path⟩ = .lt :=
  (Command.pairwise_occurrences 0 0 commands).imp fun {o o'} before =>
    (Position.compare_path ⟨type, method, o.path⟩ o'.path).trans before

theorem lt_iff_precedes (hb : p.body? type method = some commands)
    (h : p.commandAt ⟨type, method, path⟩ = .ok (some c))
    (h' : p.commandAt ⟨type, method, path'⟩ = .ok (some c')) :
    compare (⟨type, method, path⟩ : Position) ⟨type, method, path'⟩ = .lt ↔
      Precedes (Command.occurrences 0 0 commands) ⟨path, c⟩ ⟨path', c'⟩ := by
  have sorted := increasing_positions type method commands
  constructor
  · intro lt
    obtain ⟨i, hi⟩ := List.getElem?_of_mem ((commandAt_iff_occurs hb).mp h)
    obtain ⟨j, hj⟩ := List.getElem?_of_mem ((commandAt_iff_occurs hb).mp h')
    exact ⟨i, j, (compare_eq_lt_iff sorted hi hj).mp lt, hi, hj⟩
  · rintro ⟨i, j, lt, hi, hj⟩
    exact (compare_eq_lt_iff sorted hi hj).mpr lt

theorem enumerates_body (hb : p.body? type method = some commands) :
    p.Enumerates type method commands where
  command path c := commandAt_iff_occurs hb
  ending path := commandAt_eq_none_iff hb
  malformed path noEnd noCommand := by
    cases h : p.commandAt ⟨type, method, path⟩ with
    | error e =>
      obtain ⟨reason, rfl⟩ := commandAt_eq_error h
      exact ⟨reason, rfl⟩
    | ok command? =>
      cases command? with
      | none => exact absurd ((commandAt_eq_none_iff hb).mp h) noEnd
      | some c => exact absurd ((commandAt_iff_occurs hb).mp h) (noCommand c)
  distinct := List.pairwise_map.mpr <|
    (Command.pairwise_occurrences 0 0 commands).imp fun before same => by
      rw [Occurrence.Before, same, Std.compare_self] at before
      cases before
  increasing := increasing_positions type method commands
  order _ _ _ _ h h' := lt_iff_precedes hb h h'

/-- Positions are addresses. In each body that a type declares, a position is that of the command
which is listed with its path, or it is the end of the body, or it is malformed; the positions of
the commands increase in the order of the source text. A position in no such body is malformed. -/
theorem positions_enumerate (p : Program) :
    (∀ t ∈ p.table, ∀ m ∈ t.methods, p.Enumerates t.name m.name m.commands) ∧
    ∀ position : Position,
      (∀ t ∈ p.table, ∀ m ∈ t.methods, t.name = position.type → m.name ≠ position.method) →
        ∃ reason, p.commandAt position = .error (.malformedPosition position reason) := by
  refine ⟨fun t ht m hm => ?_, fun position nowhere => ?_⟩
  · exact enumerates_body (body?_eq_some_iff.mpr ⟨t, ht, m, hm, ⟨rfl, rfl⟩, rfl⟩)
  · cases h : p.commandAt position with
    | error e =>
      obtain ⟨reason, rfl⟩ := commandAt_eq_error h
      exact ⟨reason, rfl⟩
    | ok command? =>
      obtain ⟨commands, hb⟩ := body?_of_commandAt h
      obtain ⟨t, ht, m, hm, ⟨ofType, named⟩, -⟩ := body?_eq_some_iff.mp hb
      exact absurd named (nowhere t ht m hm ofType)

/-- A door is opened by a knock, unless it is open or locked. -/
def doors : Program where
  table := [
    ⟨"Door", none, [⟨"open", .bool⟩, ⟨"locked", .bool⟩], [
      .ofBody "knock" [] [
        .cond (.field .self "open")
          [.ret (some (.const (.bool true)))]
          (some [
            .cond (.field .self "locked") [] (some [
              .assign (.field .self "open") (.const (.bool true))])]),
        .ret (some (.field .self "open"))]]⟩]
  fault?_eq_none := by decide

/-- The door is opened in a branch of a branch, which comes before the last command. There is
nothing in the empty branch, and nothing behind the branch that opens the door. -/
theorem positions_enumerate_doors :
    doors.commandAt ⟨"Door", "knock", [⟨0, 1⟩, ⟨1, 0⟩, ⟨1, 0⟩]⟩ =
        .ok (some (.assign (.field .self "open") (.const (.bool true)))) ∧
      compare (⟨"Door", "knock", [⟨0, 1⟩, ⟨1, 0⟩, ⟨1, 0⟩]⟩ : Position)
        ⟨"Door", "knock", [⟨0, 2⟩]⟩ = .lt ∧
      doors.commandAt ⟨"Door", "knock", [⟨0, 3⟩]⟩ = .ok none ∧
      (∃ reason, doors.commandAt ⟨"Door", "knock", [⟨0, 1⟩, ⟨1, 0⟩, ⟨0, 0⟩]⟩ =
        .error (.malformedPosition ⟨"Door", "knock", [⟨0, 1⟩, ⟨1, 0⟩, ⟨0, 0⟩]⟩ reason)) ∧
      ∃ reason, doors.commandAt ⟨"Door", "ring", [⟨0, 0⟩]⟩ =
        .error (.malformedPosition ⟨"Door", "ring", [⟨0, 0⟩]⟩ reason) := by
  obtain ⟨bodies, nowhere⟩ := positions_enumerate doors
  have knock := bodies _ List.mem_cons_self _ List.mem_cons_self
  have opened := (knock.command [⟨0, 1⟩, ⟨1, 0⟩, ⟨1, 0⟩] _).mpr (List.mem_of_getElem? (i := 4) rfl)
  have last := (knock.command [⟨0, 2⟩] _).mpr (List.mem_of_getElem? (i := 5) rfl)
  refine ⟨opened, (knock.order _ _ _ _ opened last).mpr ⟨4, 5, by decide, rfl, rfl⟩,
    (knock.ending _).mpr rfl, knock.malformed _ (by decide) fun c hc => ?_, nowhere _ ?_⟩
  · simp [Command.occurrences, Command.inner, Command.innerElse, Occurrence.below,
      MethodDef.ofBody] at hc
  · simp [doors, MethodDef.ofBody]

end Program

end Microstep
