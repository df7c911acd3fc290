/-!
# Positions

Where a program stands. A `Position` names a command: a method body and a path of levels, one for
each block that encloses the command, outermost first. The first level lies in the body itself,
which is block 0; every further level chooses a branch of the command at the level above. An
`ExprPath` names a node of a command's expressions by child indices, the empty path the command
itself, and a `Site` is a node of a command.

* `Position.text`, `ExprPath.text`, `Site.text`: `Main.run [0:3 / 1:0]`, `1.0`, and both with `@`;
* the order is lexicographic throughout, so a command comes after those that enclose it. The
  instances of `Std.TransOrd` and `Std.LawfulEqOrd` make positions and sites keys of sorted maps.
-/

namespace Microstep

/-- One level of a path: a branch of the enclosing command, and the index of a command there. -/
structure Level where
  block : Nat
  command : Nat
deriving DecidableEq, Repr, Inhabited

/-- The levels that lead to a command, outermost first. -/
abbrev Path := List Level

/-- A command of the method body that `type` declares under the name `method`. -/
structure Position where
  type : String
  method : String
  path : Path
deriving DecidableEq, Repr, Inhabited

/-- Child indices that lead from a command to a node of its expressions. -/
abbrev ExprPath := List Nat

/-- A node of the expressions of a command. -/
structure Site where
  position : Position
  path : ExprPath
deriving DecidableEq, Repr, Inhabited

namespace Level

/-- Levels are ordered by block, then by command. -/
instance : Ord Level := ⟨compareLex (compareOn block) (compareOn command)⟩

instance : Std.TransOrd Level :=
  inferInstanceAs (Std.TransCmp (compareLex (compareOn block) (compareOn command)))

instance : Std.LawfulEqOrd Level where
  eq_of_compare {a b} h := by
    have h' : compareLex (compareOn block) (compareOn command) a b = .eq := h
    simp only [compareLex, compareOn, Ordering.then_eq_eq, Std.LawfulEqOrd.compare_eq_iff_eq] at h'
    cases a
    cases b
    simp_all

/-- A level as `block:command`. -/
def text (l : Level) : String := toString l.block ++ ":" ++ toString l.command

end Level

namespace Path

/-- The last level moved on by one command, the levels that enclose it kept. -/
def following : Path → Path
  | [] => []
  | [level] => [{ level with command := level.command + 1 }]
  | level :: next :: rest => level :: following (next :: rest)

end Path

namespace Position

/-- Positions are ordered by type, then by method, then by path. -/
instance : Ord Position :=
  ⟨compareLex (compareOn type) (compareLex (compareOn method) (compareOn path))⟩

instance : Std.TransOrd Position :=
  inferInstanceAs
    (Std.TransCmp (compareLex (compareOn type) (compareLex (compareOn method) (compareOn path))))

instance : Std.LawfulEqOrd Position where
  eq_of_compare {a b} h := by
    have h' : compareLex (compareOn type) (compareLex (compareOn method) (compareOn path)) a b
        = .eq := h
    simp only [compareLex, compareOn, Ordering.then_eq_eq, Std.LawfulEqOrd.compare_eq_iff_eq] at h'
    cases a
    cases b
    simp_all

/-- A position as `type.method [levels]`. -/
def text (p : Position) : String :=
  p.type ++ "." ++ p.method ++ " [" ++ " / ".intercalate (p.path.map Level.text) ++ "]"

/-- The number of blocks that enclose the command, the body included. -/
def depth (p : Position) : Nat := p.path.length

/-- The first command of a body. -/
def entry (type method : String) : Position := ⟨type, method, [⟨0, 0⟩]⟩

/-- The second command of the body, which follows the entry marker. -/
def afterEntry (p : Position) : Position := { p with path := [⟨0, 1⟩] }

/-- The first command of a branch of the command at `p`. -/
def descend (p : Position) (block : Nat) : Position := { p with path := p.path ++ [⟨block, 0⟩] }

/-- The command whose branch holds `p`, unless `p` lies in the body itself. -/
def ascend? (p : Position) : Option Position :=
  if p.path.length ≤ 1 then none else some { p with path := p.path.dropLast }

/-- The position behind `p` in the same block, whether or not a command stands there. -/
def following (p : Position) : Position :=
  { p with path := p.path.following }

end Position

namespace ExprPath

/-- The path of the node that holds the node at `path`; the command holds itself. -/
def ascend (path : ExprPath) : ExprPath := path.dropLast

/-- Indices separated by dots; the command itself is written `EMPTY`. -/
def text (path : ExprPath) : String :=
  if path.isEmpty then "EMPTY" else ".".intercalate (path.map toString)

end ExprPath

namespace Site

/-- Sites are ordered by position, then by path. -/
instance : Ord Site := ⟨compareLex (compareOn position) (compareOn path)⟩

instance : Std.TransOrd Site :=
  inferInstanceAs (Std.TransCmp (compareLex (compareOn position) (compareOn path)))

instance : Std.LawfulEqOrd Site where
  eq_of_compare {a b} h := by
    have h' : compareLex (compareOn position) (compareOn path) a b = .eq := h
    simp only [compareLex, compareOn, Ordering.then_eq_eq, Std.LawfulEqOrd.compare_eq_iff_eq] at h'
    cases a
    cases b
    simp_all

/-- A site as `position @ path`. -/
def text (s : Site) : String := s.position.text ++ " @ " ++ ExprPath.text s.path

end Site

end Microstep
