import Microstep.Memory

/-!
# Operations on a memory

What can be done to a memory, as data, so that one can speak of everything that has been done to it
since it was empty. An operation that fails leaves the memory as it was.

* `Memory.Operation`, `Memory.apply`: the operations, and the memory after one of them;
* `Memory.applyAll`: the memory after several.
-/

namespace Microstep.Memory

/-- What can be done to a memory. -/
inductive Operation where
  | push (frame : Frame)
  | pop
  | allocate (o : Object)
  | write (l : Location) (v : Value)
  | bind (name : String) (v : Value)
  | record (site : Site) (v : Value)
  | clear (position : Position)
deriving DecidableEq

/-- Whether an operation adds an object to the heap. -/
def Operation.isAllocate : Operation → Bool
  | .allocate _ => true
  | _ => false

/-- The memory after an operation. -/
def apply (m : Memory) : Operation → Except Error Memory
  | .push frame => .ok (m.push frame)
  | .pop => do return (← m.pop).2
  | .allocate o => .ok (m.allocate o).2
  | .write l v => m.write l v
  | .bind name v => m.bind name v
  | .record site v => m.record site v
  | .clear position => m.clear position

/-- The memory after operations that are done one after the other, whether or not they fail. -/
def applyAll (m : Memory) (operations : List Operation) : Memory :=
  operations.foldl (fun m operation => (m.apply operation).toOption.getD m) m

end Microstep.Memory
