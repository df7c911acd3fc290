import Microstep.Program.Occurrence
import Microstep.Proofs.PositionOrder

/-!
# Where commands occur

The command at a position of a program is one of those that its body lists, and every command of the
list is the one at the position with its path.

* `Command.mem_occurrences_iff_follow`: the commands to which paths lead;
* `Program.occurs_of_commandAt`: the command at a position.
-/

namespace Microstep

namespace Command

variable {c d : Command} {commands : List Command} {block index : Nat} {path : Path}

/-- The commands below a command are those of its branches. -/
theorem mem_inner_iff {o : Occurrence} :
    o ∈ d.inner ↔
      ∃ block branch, d.branch? block = some branch ∧ o ∈ occurrences block 0 branch := by
  cases d with
  | cond condition thenBranch elseBranch =>
    rw [inner, List.mem_append]
    constructor
    · rintro (ho | ho)
      · exact ⟨0, thenBranch, rfl, ho⟩
      · cases elseBranch with
        | none => cases ho
        | some branch => exact ⟨1, branch, rfl, ho⟩
    · rintro ⟨block, branch, hb, ho⟩
      match block, hb with
      | 0, hb =>
        cases hb
        exact .inl ho
      | 1, hb =>
        obtain rfl : elseBranch = some branch := hb
        exact .inr ho
  | _ => simp [inner, branch?]

/-- What occurs in a block is one of its commands, or occurs below one. -/
theorem mem_occurrences_iff :
    ⟨path, c⟩ ∈ occurrences block index commands ↔
      ∃ i d rest, commands[i]? = some d ∧ path = ⟨block, index + i⟩ :: rest ∧
        (rest = [] ∧ c = d ∨ ⟨rest, c⟩ ∈ d.inner) := by
  induction commands generalizing index with
  | nil => simp [occurrences]
  | cons first rest ih =>
    have head : ⟨path, c⟩ ∈ first.inner.map (Occurrence.below ⟨block, index⟩) ↔
        ∃ tail, path = ⟨block, index⟩ :: tail ∧ ⟨tail, c⟩ ∈ first.inner := by
      rw [List.mem_map]
      constructor
      · rintro ⟨⟨tail, c⟩, ho, h⟩
        cases h
        exact ⟨tail, rfl, ho⟩
      · rintro ⟨tail, rfl, ho⟩
        exact ⟨⟨tail, c⟩, ho, rfl⟩
    rw [occurrences, List.cons_append, List.mem_cons, List.mem_append, head, ih,
      Occurrence.mk.injEq]
    constructor
    · rintro (⟨rfl, rfl⟩ | ⟨tail, rfl, ho⟩ | ⟨i, d, tail, hd, rfl, ho⟩)
      · exact ⟨0, c, [], rfl, rfl, .inl ⟨rfl, rfl⟩⟩
      · exact ⟨0, first, tail, rfl, rfl, .inr ho⟩
      · exact ⟨i + 1, d, tail, hd, by rw [Nat.add_assoc, Nat.add_comm 1], ho⟩
    · rintro ⟨i, d, tail, hd, rfl, ho⟩
      cases i with
      | zero =>
        cases hd
        obtain ⟨rfl, rfl⟩ | ho := ho
        · exact .inl ⟨rfl, rfl⟩
        · exact .inr (.inl ⟨tail, rfl, ho⟩)
      | succ i => exact .inr (.inr ⟨i, d, tail, hd, by rw [Nat.add_assoc, Nat.add_comm 1], ho⟩)

theorem nil_not_mem_inner : ⟨[], c⟩ ∉ d.inner := by
  intro ho
  obtain ⟨block, branch, -, ho⟩ := mem_inner_iff.mp ho
  obtain ⟨i, d, rest, -, h, -⟩ := mem_occurrences_iff.mp ho
  cases h

/-- The commands that occur in branch `block` are those to which the paths into it lead. -/
theorem mem_occurrences_iff_follow :
    ⟨path, c⟩ ∈ occurrences block 0 commands ↔ path.head?.map (·.block) = some block ∧
      ∃ place, Path.follow commands path = .ok place ∧ place.command? = some c := by
  induction path generalizing block commands with
  | nil => simp [mem_occurrences_iff]
  | cons level rest ih =>
    rw [mem_occurrences_iff]
    simp only [Nat.zero_add, List.cons.injEq, List.head?_cons, Option.map_some, Option.some.injEq]
    cases rest with
    | nil =>
      constructor
      · rintro ⟨i, d, tail, hd, ⟨rfl, rfl⟩, ⟨-, rfl⟩ | ho⟩
        · exact ⟨rfl, _, rfl, hd⟩
        · exact absurd ho nil_not_mem_inner
      · rintro ⟨rfl, place, hf, hc⟩
        cases hf
        exact ⟨level.command, c, [], hc, ⟨rfl, rfl⟩, .inl ⟨rfl, rfl⟩⟩
    | cons inner rest =>
      constructor
      · rintro ⟨i, d, tail, hd, ⟨rfl, rfl⟩, ⟨hnil, -⟩ | ho⟩
        · cases hnil
        · obtain ⟨block, branch, hb, ho⟩ := mem_inner_iff.mp ho
          obtain ⟨hinner, place, hf, hc⟩ := ih.mp ho
          obtain rfl : inner.block = block := Option.some.inj hinner
          exact ⟨rfl, place, Path.follow_cons_iff.mpr ⟨d, branch, hd, hb, hf⟩, hc⟩
      · rintro ⟨rfl, place, hf, hc⟩
        obtain ⟨d, branch, hd, hb, hf⟩ := Path.follow_cons_iff.mp hf
        have ho : ⟨inner :: rest, c⟩ ∈ occurrences inner.block 0 branch :=
          ih.mpr ⟨rfl, place, hf, hc⟩
        exact ⟨level.command, d, inner :: rest, hd, ⟨rfl, rfl⟩,
          .inr (mem_inner_iff.mpr ⟨_, branch, hb, ho⟩)⟩

end Command

/-- The command at a position occurs in the body, at the path of the position. -/
theorem Program.occurs_of_commandAt {p : Program} {position : Position} {c : Command}
    (h : p.commandAt position = .ok (some c)) :
    ∃ commands, p.body? position.type position.method = some commands ∧
      ⟨position.path, c⟩ ∈ Command.occurrences 0 0 commands := by
  obtain ⟨commands, level, rest, place, hb, hpath, hlevel, hf, hc⟩ := follow_of_commandAt h
  refine ⟨commands, hb, Command.mem_occurrences_iff_follow.mpr ⟨?_, place, hpath ▸ hf, hc⟩⟩
  rw [hpath, ← hlevel]
  rfl

end Microstep
