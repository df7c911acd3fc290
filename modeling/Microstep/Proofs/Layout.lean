import Microstep.Proofs.Ancestry
import Microstep.Proofs.Succession

/-!
# Blocks in place

The commands of a block stand at positions that lead from one to the next, and from the last one to
where the program goes on: from a branch to what follows its conditional, from a body to its end.

* `Program.Laid`: commands at positions that follow one another;
* `Program.laid_body`, `Program.laid_branch`: bodies and branches are laid;
* `Program.Marked`: a program whose bodies are opened by the entry marker and hold no other.
-/

namespace Microstep

mutual

/-- Whether neither the command nor one in its branches is an entry marker. -/
def Command.unmarked : Command → Bool
  | .entry => false
  | .cond _ thenBranch elseBranch =>
    Command.unmarkedAll thenBranch && Command.unmarkedElse elseBranch
  | .assign .. | .call .. | .ret _ => true

/-- Whether no command of a block, at any depth, is an entry marker. -/
def Command.unmarkedAll : List Command → Bool
  | [] => true
  | c :: rest => c.unmarked && Command.unmarkedAll rest

/-- The same of the branch that is taken when a condition fails. -/
def Command.unmarkedElse : Option (List Command) → Bool
  | none => true
  | some branch => Command.unmarkedAll branch

end

namespace Program

variable {p : Program} {type method : String} {pre : Path} {position exit : Position} {c : Command}
  {commands branch : List Command} {block i : Nat}

/-- The methods are built from bodies without entry markers. -/
def Marked (p : Program) : Prop :=
  ∀ t ∈ p.table, ∀ m ∈ t.methods, ∃ body, m = .ofBody m.name m.params body ∧
    Command.unmarkedAll body = true

/-- Whether a body is opened by the entry marker and holds no other. -/
def opened : List Command → Bool
  | .entry :: body => Command.unmarkedAll body
  | _ => false

theorem opened_iff {m : MethodDef} : opened m.commands = true ↔
    ∃ body, m = .ofBody m.name m.params body ∧ Command.unmarkedAll body = true := by
  obtain ⟨name, params, commands⟩ := m
  constructor
  · intro h
    unfold opened at h
    split at h
    · rename_i body hbody
      exact ⟨body, by rw [MethodDef.ofBody, ← hbody], h⟩
    · cases h
  · rintro ⟨body, hbody, h⟩
    rw [hbody]
    exact h

instance (p : Program) : Decidable p.Marked :=
  decidable_of_iff (∀ t ∈ p.table, ∀ m ∈ t.methods, opened m.commands = true) <| by
    simp only [Marked, opened_iff]

/-- The commands stand one after the other from a position on, and the program goes on at another
one when the last of them is done. -/
inductive Laid (p : Program) : List Command → Position → Position → Prop
  | nil {exit : Position} : Laid p [] exit exit
  | cons {c : Command} {commands : List Command} {position q exit : Position}
      (command : p.commandAt position = .ok (some c)) (next : p.next position = .ok q)
      (rest : Laid p commands q exit) : Laid p (c :: commands) position exit

/-- What is left of a block is laid, if the last command leads to the exit. -/
theorem laid_drop (h : p.locate ⟨type, method, pre ++ [⟨block, i⟩]⟩ = .ok ⟨commands, i⟩)
    (hi : i < commands.length)
    (last : p.next ⟨type, method, pre ++ [⟨block, commands.length - 1⟩]⟩ = .ok exit) :
    p.Laid (commands.drop i) ⟨type, method, pre ++ [⟨block, i⟩]⟩ exit := by
  induction hn : commands.length - i generalizing i with
  | zero => omega
  | succ n ih =>
    have command : p.commandAt ⟨type, method, pre ++ [⟨block, i⟩]⟩ = .ok (some commands[i]) :=
      commandAt_eq_some_iff.mpr ⟨_, h, List.getElem?_eq_getElem hi⟩
    rw [List.drop_eq_getElem_cons hi]
    by_cases hlt : i + 1 < commands.length
    · exact .cons command (next_within h hlt) (ih (locate_sibling (i + 1) h) hlt (by omega))
    · rw [List.drop_eq_nil_of_le (by omega)]
      obtain rfl : i = commands.length - 1 := by omega
      exact .cons command last .nil

/-- What is left of a body leads to its end. -/
theorem laid_body (hb : p.body? type method = some commands) (hi : i ≤ commands.length) :
    p.Laid (commands.drop i) ⟨type, method, [⟨0, i⟩]⟩ ⟨type, method, [⟨0, commands.length⟩]⟩ := by
  have hl (j : Nat) : p.locate ⟨type, method, [] ++ [⟨0, j⟩]⟩ = .ok ⟨commands, j⟩ :=
    locate_body_iff.mpr ⟨rfl, commands, hb, rfl⟩
  obtain hlt | rfl := Nat.lt_or_eq_of_le hi
  · refine laid_drop (hl i) hlt ?_
    have hn := next_end (hl (commands.length - 1)) (by omega)
    rwa [Nat.sub_add_cancel (Nat.zero_lt_of_lt hlt)] at hn
  · rw [List.drop_length]
    exact .nil

/-- A branch leads to what follows its conditional. -/
theorem laid_branch (hc : p.commandAt position = .ok (some c))
    (hb : c.branch? block = some branch) (inside : branch ≠ []) (hn : p.next position = .ok exit) :
    p.Laid branch (position.descend block) exit := by
  obtain ⟨type, method, path⟩ := position
  have hp : path ≠ [] := by
    rintro rfl
    obtain ⟨place, hl, -⟩ := commandAt_eq_some_iff.mp hc
    cases hl
  have hl (j : Nat) : p.locate ⟨type, method, path ++ [⟨block, j⟩]⟩ = .ok ⟨branch, j⟩ :=
    (locate_concat_iff hp).mpr ⟨c, branch, hc, hb, rfl⟩
  have hlt := List.length_pos_iff.mpr inside
  refine laid_drop (hl 0) hlt ?_
  rw [next_behind (hl (branch.length - 1)) (by omega) hp, hn]

theorem end_of_body (hb : p.body? type method = some commands) :
    p.commandAt ⟨type, method, [⟨0, commands.length⟩]⟩ = .ok none := by
  have hl : p.locate ⟨type, method, [⟨0, commands.length⟩]⟩ = .ok ⟨commands, commands.length⟩ :=
    locate_body_iff.mpr ⟨rfl, commands, hb, rfl⟩
  simp [commandAt, hl, Place.command?, Position.depth]

/-- A body is that of a method which a type declares. -/
theorem mem_methods_of_body? (h : p.body? type method = some commands) :
    ∃ t ∈ p.table, ∃ m ∈ t.methods, (t.name = type ∧ m.name = method) ∧ m.commands = commands := by
  simp only [body?, TypeTable.type?, TypeDef.method?, Option.bind_eq_bind, Option.bind_eq_some_iff,
    Option.pure_def, Option.some.injEq] at h
  obtain ⟨t, ht, m, hm, rfl⟩ := h
  have names : t.name = type ∧ m.name = method :=
    ⟨by simpa using List.find?_some ht, by simpa using List.find?_some hm⟩
  exact ⟨t, List.mem_of_find?_eq_some ht, m, List.mem_of_find?_eq_some hm, names, rfl⟩

/-- A body is opened by the entry marker. -/
theorem Marked.of_body? (marked : p.Marked) (h : p.body? type method = some commands) :
    ∃ body, commands = .entry :: body ∧ Command.unmarkedAll body = true := by
  obtain ⟨t, ht, m, hm, -, rfl⟩ := mem_methods_of_body? h
  obtain ⟨body, hbody, unmarked⟩ := marked t ht m hm
  rw [hbody]
  exact ⟨body, rfl, unmarked⟩

/-- A call finds a body that is opened by the entry marker. -/
theorem Marked.of_dispatch (marked : p.Marked) {arity : Nat} {found : Implementation}
    (h : p.dispatch type method arity = .ok found) :
    ∃ body, found.method.commands = .entry :: body ∧ Command.unmarkedAll body = true :=
  marked.of_body? (body?_of_dispatch h)

end Program

end Microstep
