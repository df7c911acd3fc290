import Microstep.Recording

/-!
# Players

A player shows one state of a recorded run at a time and moves through it in both directions. Behind
the last recorded state it runs the program on, within a limit on the number of steps.

* `Player.forward`, `Player.back`, `Player.rewind`: move through the recording;
* `Player.run`: records until the program has finished, and shows the same state as before.
-/

namespace Microstep

/-- What a player may use. -/
structure Limits where
  /-- The memory that the recorded states may take, in bytes. -/
  memory : Nat := 1024 * 1024 * 1024
  /-- The number of steps that may be recorded. -/
  steps : Nat := 100000
deriving DecidableEq, Repr

/-- A recorded run of a program, and the state of it that is shown. -/
structure Player where
  program : Program
  maxSteps : Nat
  recording : Recording
  index : Nat
  index_lt : index < recording.size

namespace Player

/-- A player at the first state of a run, which has to fit into the memory. -/
def load (p : Program) (initial : State) (limits : Limits) : Except Error Player :=
  let recording := Recording.empty limits.memory
  if fits : recording.Fits initial then
    .ok ⟨p, limits.steps, recording.add initial fits, 0, by simp⟩
  else
    .error (recording.overflow initial)

/-- The limits that the player keeps to. -/
def limits (pl : Player) : Limits := ⟨pl.recording.limit, pl.maxSteps⟩

/-- The recorded states, oldest first. -/
def history (pl : Player) : List State := pl.recording.states.toList

/-- The number of recorded states. -/
def size (pl : Player) : Nat := pl.recording.size

/-- The number of steps that may still be recorded. -/
def remaining (pl : Player) : Nat := pl.maxSteps - (pl.size - 1)

/-- The state that is shown. -/
def current (pl : Player) : State :=
  have : pl.index < pl.recording.states.size := pl.index_lt
  pl.recording.states[pl.index]

/-- The last recorded state. -/
def latest (pl : Player) : State :=
  have : pl.size - 1 < pl.recording.states.size := Nat.sub_one_lt_of_lt pl.index_lt
  pl.recording.states[pl.size - 1]

/-- Whether the recording goes to the end of the run. -/
def isFinished (pl : Player) : Bool := pl.latest.isFinished

/-- The state after the last recorded one, if there is one and it fits into the memory. -/
def upcoming (pl : Player) : Except Error { s : State // pl.recording.Fits s } := do
  let s ← pl.latest.advance pl.program
  if fits : pl.recording.Fits s then return ⟨s, fits⟩ else .error (pl.recording.overflow s)

/-- Records a state behind the last one. -/
def add (pl : Player) (s : State) (fits : pl.recording.Fits s) : Player :=
  { pl with
    recording := pl.recording.add s fits
    index_lt := by simpa using Nat.lt_succ_of_lt pl.index_lt }

@[simp]
theorem size_add (pl : Player) (s : State) (fits : pl.recording.Fits s) :
    (pl.add s fits).size = pl.size + 1 :=
  Recording.size_add ..

/-- Shows another recorded state. -/
def seek (pl : Player) (index : Nat) (h : index < pl.size) : Player :=
  { pl with index, index_lt := h }

/-- Shows the next state, which is recorded first if need be. -/
def forward (pl : Player) : Except Error Player :=
  if h : pl.index + 1 < pl.size then
    .ok (pl.seek (pl.index + 1) h)
  else if pl.isFinished then
    .error .programFinished
  else if pl.remaining = 0 then
    .error (.stepLimitExceeded pl.maxSteps)
  else do
    let ⟨s, fits⟩ ← pl.upcoming
    return (pl.add s fits).seek (pl.index + 1)
      (size_add pl s fits ▸ Nat.succ_lt_succ pl.index_lt)

/-- Shows the state before the current one. -/
def back (pl : Player) : Except Error Player :=
  if pl.index = 0 then
    .error (.protocolViolation "already at the beginning of execution")
  else
    .ok (pl.seek (pl.index - 1) (Nat.lt_of_le_of_lt (Nat.sub_le ..) pl.index_lt))

/-- Shows the first state. -/
def rewind (pl : Player) : Player := pl.seek 0 (Nat.zero_lt_of_lt pl.index_lt)

/-- Records at most `budget` further states, until the program has finished. A failure keeps what
was recorded before. -/
def runFor : Nat → Player → Player × Option Error
  | 0, pl => (pl, if pl.isFinished then none else some (.stepLimitExceeded pl.maxSteps))
  | budget + 1, pl =>
    if pl.isFinished then
      (pl, none)
    else
      match pl.upcoming with
      | .error e => (pl, some e)
      | .ok ⟨s, fits⟩ => runFor budget (pl.add s fits)

/-- Records to the end of the run, as far as the limits allow. -/
def run (pl : Player) : Player × Option Error := runFor pl.remaining pl

end Player

end Microstep
