import Microstep.Memory.Scope

/-!
# Stack frames

What an activation of a method owns: its scope, the values of the nodes that it has evaluated so
far, and the site in its caller that waits for its result.
-/

namespace Microstep

/-- An activation. The type is that of the receiver, which may inherit the method. `caller` is
absent in the activation that the program starts with. -/
structure Frame extends Scope where
  method : String
  caller : Option Site
  type : String
  pending : Std.ExtTreeMap Site Value
deriving DecidableEq

namespace Frame

/-- A new activation, for which no node has been evaluated. -/
def enter (scope : Scope) (method : String) (caller : Option Site) (type : String) : Frame :=
  { scope with method, caller, type, pending := ∅ }

/-- Gives a value to a variable. -/
def bind (f : Frame) (name : String) (v : Value) : Frame :=
  { f with toScope := f.toScope.bind name v }

/-- Keeps the value of a node. -/
def record (f : Frame) (site : Site) (v : Value) : Frame :=
  { f with pending := f.pending.insert site v }

/-- Drops the values of all nodes of the command at a position. -/
def clear (f : Frame) (position : Position) : Frame :=
  { f with pending := f.pending.filter fun site _ => site.position ≠ position }

theorem getElem?_pending_record (f : Frame) (site other : Site) (v : Value) :
    (f.record site v).pending[other]? = if site = other then some v else f.pending[other]? := by
  simp [record, Std.ExtTreeMap.getElem?_insert]

theorem getElem?_pending_clear (f : Frame) (position : Position) (site : Site) :
    (f.clear position).pending[site]? =
      if site.position = position then none else f.pending[site]? := by
  by_cases h : site.position = position
  · simp [clear, h]
  · cases known : f.pending[site]? <;> simp [clear, h, known]

end Frame

end Microstep
