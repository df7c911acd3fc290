import Std.Data.ExtTreeMap
import Microstep.Error

/-!
# The heap

Objects by address. Addresses are given out in order and objects are never removed, so an address is
allocated exactly if it lies below the size of the heap.
-/

namespace Microstep

/-- An object: its type at run time, and a value for each of its fields. -/
structure Object where
  type : String
  fields : Std.ExtTreeMap String Value
deriving DecidableEq

namespace Object

/-- A new object: each field holds the default of its type. Of two declarations of a field the later
one counts. -/
def ofDeclarations (type : String) (declarations : List Declaration) : Object :=
  ⟨type, declarations.foldl (fun fields d => fields.insert d.name d.type.default) ∅⟩

/-- The value of a field. -/
def read (o : Object) (field : String) : Except Error Value :=
  match o.fields[field]? with
  | some v => .ok v
  | none => .error (.missingField o.type field)

/-- Gives a new value to a field that the object has. -/
def write (o : Object) (field : String) (v : Value) : Except Error Object :=
  if field ∈ o.fields then
    .ok { o with fields := o.fields.insert field v }
  else
    .error (.missingField o.type field)

end Object

/-- The objects allocated so far, oldest first. -/
structure Heap where
  objects : Array Object
deriving DecidableEq

namespace Heap

/-- A heap without objects. -/
def empty : Heap := ⟨#[]⟩

/-- The number of objects. -/
def size (h : Heap) : Nat := h.objects.size

/-- The object at an address. -/
def get (h : Heap) (a : Address) : Except Error Object :=
  match h.objects[a.index]? with
  | some o => .ok o
  | none => .error (.unknownAddress a)

/-- Adds an object at the next address. -/
def allocate (h : Heap) (o : Object) : Address × Heap :=
  (⟨h.size⟩, ⟨h.objects.push o⟩)

/-- The type of the object at an address. -/
def typeOf (h : Heap) (a : Address) : Except Error String := do
  return (← h.get a).type

/-- The value of a field of the object at an address. -/
def read (h : Heap) (a : Address) (field : String) : Except Error Value := do
  (← h.get a).read field

/-- Gives a new value to a field of the object at an address. -/
def write (h : Heap) (a : Address) (field : String) (v : Value) : Except Error Heap := do
  let o ← (← h.get a).write field v
  return ⟨h.objects.setIfInBounds a.index o⟩

@[simp]
theorem size_allocate (h : Heap) (o : Object) : (h.allocate o).2.size = h.size + 1 := by
  simp [allocate, size]

theorem get_allocate (h : Heap) (o : Object) (a : Address) :
    (h.allocate o).2.get a = if a.index = h.size then .ok o else h.get a := by
  by_cases fresh : a.index = h.objects.size <;>
    simp [allocate, get, size, Array.getElem?_push, fresh]

end Heap

end Microstep
