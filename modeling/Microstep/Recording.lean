import Microstep.State.Execute

/-!
# Recordings

The states of a run, kept in the order in which they were pushed, under a limit on the memory that
they may take. What a state takes is an estimate (`State.footprint`). A state that does not fit is
refused and leaves the recording as it was, so that a smaller one can still follow.

* `Recording.Fits`, `Recording.push`: the test, and the recording after it;
* `Recording.offer`, `Recording.offerAll`: pushes that may fail, and what is kept all the same;
* `Recording.push_eq_ok_iff`, `Recording.push_eq_error_iff`: when a state is kept, and what is kept.
-/

namespace Microstep

/-- A fixed part for each frame, and a part for each variable and node value. -/
def Frame.footprint (f : Frame) : Nat := 100 + 40 * (f.locals.size + f.pending.size)

/-- A fixed part for each object, and a part for each field. -/
def Object.footprint (o : Object) : Nat := 50 + 40 * o.fields.size

/-- The estimated memory of a state, in bytes: its frames, its objects and the levels of its
position. -/
def State.footprint (s : State) : Nat :=
  s.memory.stack.foldl (fun total f => total + f.footprint) 0
    + s.memory.heap.objects.foldl (fun total o => total + o.footprint) 0
    + 16 * s.position.depth

/-- States under a memory limit, oldest first. -/
structure Recording where
  limit : Nat
  states : Array State
  used : Nat
  used_eq : used = states.foldl (fun total s => total + s.footprint) 0
  used_le : used ≤ limit

namespace Recording

/-- A recording without states. -/
def empty (limit : Nat) : Recording := ⟨limit, #[], 0, rfl, Nat.zero_le limit⟩

/-- The number of states. -/
def size (r : Recording) : Nat := r.states.size

/-- The state at an index; the first one has index 0. -/
def get? (r : Recording) (i : Nat) : Option State := r.states[i]?

/-- The state that was kept last. -/
def last? (r : Recording) : Option State := r.states.back?

/-- The states, oldest first. -/
def toList (r : Recording) : List State := r.states.toList

/-- Whether a state can be kept beside those that are kept already. -/
def Fits (r : Recording) (s : State) : Prop := r.used + s.footprint ≤ r.limit

instance (r : Recording) (s : State) : Decidable (r.Fits s) :=
  inferInstanceAs (Decidable (r.used + s.footprint ≤ r.limit))

/-- Keeps a state that fits. -/
def add (r : Recording) (s : State) (fits : r.Fits s) : Recording where
  limit := r.limit
  states := r.states.push s
  used := r.used + s.footprint
  used_eq := by simp [r.used_eq]
  used_le := fits

/-- The error for a state that does not fit. -/
def overflow (r : Recording) (s : State) : Error :=
  .snapshotLimitExceeded (r.used + s.footprint) r.limit

/-- Keeps a state, if it fits. -/
def push (r : Recording) (s : State) : Except Error Recording :=
  if fits : r.Fits s then .ok (r.add s fits) else .error (r.overflow s)

/-- The recording after a state was pushed, and why the state was refused, if it was. -/
def offer (r : Recording) (s : State) : Recording × Option Error :=
  match r.push s with
  | .ok longer => (longer, none)
  | .error e => (r, some e)

/-- The recording after states were pushed one after the other, whether or not they fit. -/
def offerAll (r : Recording) (offered : List State) : Recording :=
  offered.foldl (fun r s => (r.offer s).1) r

@[simp]
theorem states_add (r : Recording) (s : State) (fits : r.Fits s) :
    (r.add s fits).states = r.states.push s := rfl

@[simp]
theorem size_add (r : Recording) (s : State) (fits : r.Fits s) :
    (r.add s fits).size = r.size + 1 := by
  simp [size]

theorem push_eq_ok_iff {r r' : Recording} {s : State} :
    r.push s = .ok r' ↔ ∃ fits : r.Fits s, r' = r.add s fits := by
  unfold push
  split
  · next fits => simp [fits, eq_comm]
  · next full => simp [full]

theorem push_eq_error_iff {r : Recording} {s : State} {e : Error} :
    r.push s = .error e ↔ ¬ r.Fits s ∧ e = r.overflow s := by
  unfold push
  split
  · next fits => simp [fits]
  · next full => simp [full, eq_comm]

end Recording

end Microstep
