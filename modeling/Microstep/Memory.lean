import Microstep.Memory.Heap
import Microstep.Memory.Frame

/-!
# Memory

The heap and the stack of activations. Only the top frame can be read or changed; without a frame
every operation on it fails with `Error.noStackFrame`.
-/

namespace Microstep

/-- A place that holds a value: a variable of the top frame, or a field of an object. -/
inductive Location where
  | var (name : String)
  | field (object : Address) (name : String)
deriving DecidableEq, Repr

/-- The heap, and the frames with the top one first. -/
structure Memory where
  heap : Heap
  stack : List Frame
deriving DecidableEq

namespace Memory

/-- No object and no frame. -/
def empty : Memory := ⟨.empty, []⟩

/-- The number of frames. -/
def depth (m : Memory) : Nat := m.stack.length

/-- The frame of the running activation. -/
def top (m : Memory) : Except Error Frame :=
  match m.stack with
  | frame :: _ => .ok frame
  | [] => .error .noStackFrame

/-- Changes the top frame. -/
def modifyTop (m : Memory) (f : Frame → Frame) : Except Error Memory :=
  match m.stack with
  | frame :: rest => .ok { m with stack := f frame :: rest }
  | [] => .error .noStackFrame

/-- Puts a frame on top. -/
def push (m : Memory) (frame : Frame) : Memory := { m with stack := frame :: m.stack }

/-- Takes the top frame off. -/
def pop (m : Memory) : Except Error (Frame × Memory) :=
  match m.stack with
  | frame :: rest => .ok (frame, { m with stack := rest })
  | [] => .error .noStackFrame

/-- Adds an object to the heap. -/
def allocate (m : Memory) (o : Object) : Address × Memory :=
  let (a, heap) := m.heap.allocate o
  (a, { m with heap })

/-- The value at a location. -/
def read (m : Memory) : Location → Except Error Value
  | .var name => do (← m.top).toScope.read name
  | .field a name => m.heap.read a name

/-- Gives a variable of the top frame a value. -/
def bind (m : Memory) (name : String) (v : Value) : Except Error Memory :=
  m.modifyTop (·.bind name v)

/-- Changes the value at a location. A variable need not exist before, a field has to. -/
def write (m : Memory) (l : Location) (v : Value) : Except Error Memory :=
  match l with
  | .var name => m.bind name v
  | .field a name => do return { m with heap := ← m.heap.write a name v }

/-- The value that the top frame keeps for a node. -/
def pending (m : Memory) (site : Site) : Except Error (Option Value) := do
  return (← m.top).pending[site]?

/-- Keeps the value of a node in the top frame. -/
def record (m : Memory) (site : Site) (v : Value) : Except Error Memory :=
  m.modifyTop (·.record site v)

/-- Drops the values that the top frame keeps for a command. -/
def clear (m : Memory) (position : Position) : Except Error Memory :=
  m.modifyTop (·.clear position)

@[simp]
theorem pop_push (m : Memory) (frame : Frame) : (m.push frame).pop = .ok (frame, m) := rfl

@[simp]
theorem top_push (m : Memory) (frame : Frame) : (m.push frame).top = .ok frame := rfl

@[simp]
theorem depth_push (m : Memory) (frame : Frame) : (m.push frame).depth = m.depth + 1 := rfl

end Memory

end Microstep
