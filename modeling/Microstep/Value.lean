import Microstep.Integer

/-!
# Values

What expressions evaluate to, what variables are declared as, and the addresses of objects.

* `Value.text`, `Address.text`: how a value is written in messages and captions;
* `ValueType.default`: what a field of that type holds in a new object.
-/

namespace Microstep

/-- The address of an object: how many objects were allocated before it. -/
structure Address where
  index : Nat
deriving DecidableEq, Ord, Repr, Inhabited

namespace Address

/-- The number of the first object. -/
def first : Nat := 0x1000

/-- The distance between the numbers of two objects allocated one after the other. -/
def stride : Nat := 0x10

/-- The number by which an address is shown. -/
def number (a : Address) : Nat := first + stride * a.index

/-- An address is written in lower-case hexadecimal. -/
def text (a : Address) : String := "0x" ++ String.ofList (Nat.toDigits 16 a.number)

end Address

/-- A value. Integers are 64-bit; arithmetic on them is checked, never wrapping. -/
inductive Value where
  | bool (b : Bool)
  | int (n : Int64)
  | str (s : String)
  | null
  | ref (a : Address)
deriving DecidableEq, Ord, Repr, Inhabited

/-- The declared type of a field or parameter, and the type of a value at run time. -/
inductive ValueType where
  | bool
  | int
  | string
  | object (type : String)
  | null
deriving DecidableEq, Repr, Inhabited

/-- A field or parameter with its type. -/
structure Declaration where
  name : String
  type : ValueType
deriving DecidableEq, Repr, Inhabited

namespace Value

/-- A value as it appears in source text; the characters of a string are not escaped. -/
def text : Value → String
  | .bool b => if b then "true" else "false"
  | .int n => Integer.decimal n
  | .str s => "\"" ++ s ++ "\""
  | .null => "null"
  | .ref a => a.text

/-- The word for a value's kind in type errors. -/
def kind : Value → String
  | .bool _ => "bool"
  | .int _ => "int"
  | .str _ => "string"
  | .null => "null"
  | .ref _ => "object"

/-- The truth value that a value is, if it is one. -/
def bool? : Value → Option Bool
  | .bool b => some b
  | _ => none

end Value

namespace ValueType

/-- A type as it is written in type errors; an object type by its name. -/
def text : ValueType → String
  | .bool => "bool"
  | .int => "int"
  | .string => "string"
  | .object type => type
  | .null => "null"

/-- What a field of this type holds before the first assignment. -/
def default : ValueType → Value
  | .bool => .bool false
  | .int => .int 0
  | .string => .str ""
  | .object _ | .null => .null

end ValueType

end Microstep
