import Microstep.Program

/-!
# Places in a program

What a position stands for. `Program.locate` follows the levels of a path through the blocks of a
body, `Program.commandAt` reads the command there, and `Program.next` is where the program goes when
that command is done: the following command of the same block, or else of the nearest enclosing
block that has one, or else the end of the body.
-/

namespace Microstep

/-- What is wrong with a position. -/
inductive PositionFault where
  | emptyPath
  | rootBlock
  | noBody
  | outOfRange
  | noBranch
  | noCommand (index length : Nat)
deriving DecidableEq, Repr

/-- The wording of a fault. -/
def PositionFault.reason : PositionFault → String
  | emptyPath => "empty block path"
  | rootBlock => "method body must be block 0"
  | noBody => "no such method body"
  | outOfRange => "command index out of range"
  | noBranch => "command has no such block"
  | noCommand index length => s!"command index {index} out of range for block of {length}"

/-- The error for a position with the given fault. -/
def Position.malformed (position : Position) (fault : PositionFault) : Error :=
  .malformedPosition position fault.reason

/-- A block and an index into it. The index may lie at the end of the block or behind it. -/
structure Place where
  block : List Command
  index : Nat
deriving Inhabited

namespace Place

/-- The command at the place. -/
def command? (place : Place) : Option Command := place.block[place.index]?

end Place

namespace Path

/-- The place that a path leads to from `block`. The levels but the last must lead through commands
that have the branches asked for. -/
def follow (block : List Command) : Path → Except PositionFault Place
  | [] => .error .emptyPath
  | [level] => .ok ⟨block, level.command⟩
  | level :: inner :: rest =>
    match block[level.command]? with
    | none => .error .outOfRange
    | some command =>
      match command.branch? inner.block with
      | none => .error .noBranch
      | some branch => follow branch (inner :: rest)

/-- The next command after the one at a path from `block`: it stands in the innermost block that
goes on behind the path. There is none if all of them end. -/
def successor? (block : List Command) : Path → Option Path
  | [] => none
  | level :: rest =>
    let inside := do
      let command ← block[level.command]?
      let inner ← rest.head?
      let branch ← command.branch? inner.block
      successor? branch rest
    match inside with
    | some path => some (level :: path)
    | none =>
      if level.command + 1 < block.length then some (Path.following [level]) else none

end Path

namespace Program

/-- The body in which a position lies. -/
def bodyOf (p : Program) (position : Position) : Except PositionFault (List Command) :=
  match position.path with
  | [] => .error .emptyPath
  | level :: _ =>
    if level.block ≠ 0 then
      .error .rootBlock
    else
      match p.body? position.type position.method with
      | some body => .ok body
      | none => .error .noBody

/-- The block that holds a position, and the index there. -/
def locate (p : Program) (position : Position) : Except PositionFault Place := do
  position.path.follow (← p.bodyOf position)

/-- The command at a position, or `none` at the end of a body. No other block has such an end. -/
def commandAt (p : Program) (position : Position) : Except Error (Option Command) :=
  match p.locate position with
  | .error fault => .error (position.malformed fault)
  | .ok place =>
    match place.command? with
    | some command => .ok (some command)
    | none =>
      if place.index = place.block.length ∧ position.depth = 1 then
        .ok none
      else
        .error (position.malformed (.noCommand place.index place.block.length))

/-- The path behind the command at `path`; when all blocks end there, the end of the body. -/
def nextPath (body : List Command) (path : Path) : Path :=
  match path.successor? body with
  | some path => path
  | none => Path.following (path.take 1)

/-- Where the program goes on when the command at a position is done. A position in no block is
reported as the one behind it. -/
def next (p : Program) (position : Position) : Except Error Position :=
  let path : Except PositionFault Path := do
    let body ← p.bodyOf position
    let _ ← position.path.follow body
    return nextPath body position.path
  match path with
  | .ok path => .ok { position with path }
  | .error fault => .error (position.following.malformed fault)

end Program

end Microstep
