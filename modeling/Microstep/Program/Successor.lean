import Microstep.Program.Place

/-!
# Successors

Where a program goes on behind a position, said of the blocks that enclose the position and not of
how they are left.

* `Position.upTo`: a position cut behind one of its levels;
* `Program.GoesOn`: the block at a level has a following command;
* `Program.Successor`: the following command of the innermost block that goes on, or the end of the
  body.
-/

namespace Microstep

/-- The position cut behind its level `l`: its own command at the last level, and at the levels
above the commands in whose branches it lies. -/
def Position.upTo (position : Position) (l : Nat) : Position :=
  { position with path := position.path.take (l + 1) }

namespace Program

/-- The block that holds level `l` of the position has a command behind the one there. -/
def GoesOn (p : Program) (position : Position) (l : Nat) : Prop :=
  ∃ place, p.locate (position.upTo l) = .ok place ∧ place.index + 1 < place.block.length

/-- Where a program goes on behind a position. -/
inductive Successor (p : Program) (position : Position) : Position → Prop
  /-- The following command at the deepest level at which there is one. -/
  | within {l : Nat} (level : l < position.depth) (goesOn : p.GoesOn position l)
      (deepest : ∀ k, l < k → k < position.depth → ¬ p.GoesOn position k) :
      Successor p position (position.upTo l).following
  /-- The end of the body, where no level has a following command. -/
  | ending {body : List Command} (body? : p.body? position.type position.method = some body)
      (ended : ∀ k < position.depth, ¬ p.GoesOn position k) :
      Successor p position { position with path := [⟨0, body.length⟩] }

end Program

end Microstep
