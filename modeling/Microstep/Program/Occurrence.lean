import Microstep.Command

/-!
# Occurrences

All commands of a block with their paths, in the order of the source text: a conditional comes
before the commands of its branches, and those before the command that follows it.
-/

namespace Microstep

/-- A command together with its path from the block that is listed. -/
structure Occurrence where
  path : Path
  command : Command
deriving Inhabited

/-- The same command seen from the block one level further out. -/
def Occurrence.below (level : Level) (o : Occurrence) : Occurrence :=
  { o with path := level :: o.path }

mutual

/-- The commands in the branches of a command, by their paths below it. -/
def Command.inner : Command → List Occurrence
  | .cond _ thenBranch elseBranch =>
    Command.occurrences 0 0 thenBranch ++ Command.innerElse elseBranch
  | .entry | .assign .. | .call .. | .ret _ => []

/-- The commands in the branch of a conditional that is taken when the condition fails. -/
def Command.innerElse : Option (List Command) → List Occurrence
  | none => []
  | some branch => Command.occurrences 1 0 branch

/-- The commands of a block, counted from `index`; the block is branch `block` of its
conditional. -/
def Command.occurrences (block index : Nat) : List Command → List Occurrence
  | [] => []
  | c :: rest =>
    ⟨[⟨block, index⟩], c⟩ :: c.inner.map (.below ⟨block, index⟩)
      ++ Command.occurrences block (index + 1) rest

end

end Microstep
