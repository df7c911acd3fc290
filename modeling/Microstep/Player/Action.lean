import Microstep.Player

/-!
# Actions on a player

What a player can be asked for, in any order. An action that fails leaves the player as it was,
except that a run keeps what it has recorded until then.

* `Player.extend`: the one way in which a recording grows;
* `Player.act`, `Player.actAll`: the player after one action, and after several.
-/

namespace Microstep.Player

/-- Records the state after the last recorded one, within the limits. -/
def extend (pl : Player) : Except Error Player :=
  if pl.remaining = 0 then
    .error (.stepLimitExceeded pl.maxSteps)
  else do
    let ⟨s, fits⟩ ← pl.upcoming
    return pl.add s fits

/-- What a player can be asked for. -/
inductive Action where
  | run
  | forward
  | back
  | rewind
deriving DecidableEq, Repr

/-- The player after a move, or the same player if the move fails. -/
def attempt (pl : Player) : Except Error Player → Player × Option Error
  | .ok moved => (moved, none)
  | .error e => (pl, some e)

/-- The player after an action, and why the action has failed, if it has. -/
def act (pl : Player) : Action → Player × Option Error
  | .run => pl.run
  | .forward => pl.attempt pl.forward
  | .back => pl.attempt pl.back
  | .rewind => (pl.rewind, none)

/-- The player after actions that are done one after the other, whether or not they fail. -/
def actAll (pl : Player) (actions : List Action) : Player :=
  actions.foldl (fun pl action => (pl.act action).1) pl

end Microstep.Player
