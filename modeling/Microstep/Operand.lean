import Microstep.Memory.Heap
import Microstep.Program

/-!
# Evaluated operands

What the nodes of expressions do with the values of their operands: a receiver has to be an object,
an operator has to accept the number and the types of its operands, and a new object has the fields
of its whole ancestry. In the errors a node is quoted as source text.
-/

namespace Microstep

/-- The address of a receiver. `source` is the node that uses it. -/
def Value.address (receiver : Value) (source : Expr) : Except Error Address :=
  match receiver with
  | .ref a => .ok a
  | .null => .error (.nullDereference source.text)
  | other => .error (.typeError "object" other.kind source.text)

namespace Heap

/-- The type of a value at run time; that of a reference is the type of its object. -/
def valueType (h : Heap) : Value → Except Error ValueType
  | .bool _ => .ok .bool
  | .int _ => .ok .int
  | .str _ => .ok .string
  | .null => .ok .null
  | .ref a => do return .object (← h.typeOf a)

/-- Refuses operands that an operator does not take: first by their number, then by their types.
`source` is the node that applies it. -/
def checkOperands (h : Heap) (source : Expr) (op : Operator) (operands : List Value) :
    Except Error Unit :=
  if operands.length ≠ op.arity then
    .error (.typeError s!"{op.arity} operand(s)" (toString operands.length) source.text)
  else do
    let types ← operands.mapM h.valueType
    match op.resultType types with
    | some _ => return ()
    | none =>
      .error (.typeError s!"operands valid for '{op.symbol}'"
        (", ".intercalate (types.map (·.text))) source.text)

/-- The result of an operator, which is reduced only on operands that it takes. -/
def applyOperator (h : Heap) (source : Expr) (op : Operator) (operands : List Value) :
    Except Error Value := do
  h.checkOperands source op operands
  op.reduce operands

end Heap

/-- A new object of a type, with all inherited fields. -/
def Program.instantiate (p : Program) (type : String) : Except Error Object := do
  return .ofDeclarations type (← p.fields type)

end Microstep
