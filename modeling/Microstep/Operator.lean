import Microstep.Error

/-!
# Operators

The built-in operators. Each has a symbol, a number of operands, a way to be written, the type of
its result (`Operator.resultType`) and the result itself (`Operator.reduce`). The type is decided
before the result: `reduce` on operands that `resultType` refuses is a misuse of the machine.

Arithmetic is exact. A result that does not fit into 64 bits is an error, and so is a division by
zero.
-/

namespace Microstep

/-- The built-in operators; `sub` takes two operands and `neg` one. -/
inductive Operator where
  | eq | ne | lt | le | gt | ge
  | add | sub | mul | div | mod
  | and | or | not | neg
deriving DecidableEq, Repr

namespace Operator

/-- The operator in source text. -/
def symbol : Operator → String
  | .eq => "==" | .ne => "!=" | .lt => "<" | .le => "<=" | .gt => ">" | .ge => ">="
  | .add => "+" | .sub => "-" | .mul => "*" | .div => "/" | .mod => "%"
  | .and => "&&" | .or => "||" | .not => "!" | .neg => "-"

/-- How many operands the operator takes. -/
def arity : Operator → Nat
  | .not | .neg => 1
  | _ => 2

/-- An application as text: a unary operator precedes its operand, any other stands between its
operands, in parentheses. -/
def render (op : Operator) (operands : List String) : String :=
  match op with
  | .not | .neg => op.symbol ++ String.join operands
  | _ => "(" ++ (" " ++ op.symbol ++ " ").intercalate operands ++ ")"

/-- The type of the result on operands of the given types, or `none` if it refuses them. Equality
takes anything, `+` concatenates as soon as one operand is a string. -/
def resultType (op : Operator) (types : List ValueType) : Option ValueType :=
  match op with
  | .eq | .ne => some .bool
  | .lt | .le | .gt | .ge => if types.all (· = .int) then some .bool else none
  | .and | .or | .not => if types.all (· = .bool) then some .bool else none
  | .add =>
    if .string ∈ types then some .string else if types.all (· = .int) then some .int else none
  | .sub | .mul | .div | .mod | .neg => if types.all (· = .int) then some .int else none

/-- The two operands of equality. -/
def pair : List Value → Except Error (Value × Value)
  | a :: b :: _ => .ok (a, b)
  | _ => .error (.protocolViolation "equality reduced without two operands")

/-- The two operands of arithmetic and comparison. -/
def integers : List Value → Except Error (Int64 × Int64)
  | [.int a, .int b] => .ok (a, b)
  | _ => .error (.protocolViolation "arithmetic operator reduced with non-integer operands")

/-- The operands of a logical operator. -/
def booleans : List Value → Except Error (List Bool)
  | [] => .ok []
  | .bool b :: rest => return b :: (← booleans rest)
  | _ => .error (.protocolViolation "logical operator reduced with non-bool operand")

/-- A value as a part of a longer string. -/
def concatText : Value → String
  | .str s => s
  | v => v.text

/-- How an operation on two integers is named in errors. -/
def operation (op : Operator) (a b : Int64) : String :=
  Integer.decimal a ++ " " ++ op.symbol ++ " " ++ Integer.decimal b

/-- The result `n` of the operation named `operation`, if it fits. -/
def checked (operation : String) (n : Int) : Except Error Value :=
  match Integer.word? n with
  | some w => .ok (.int w)
  | none => .error (.integerOverflow operation)

/-- The comparison of two integers. -/
def comparison (args : List Value) (test : Int64 → Int64 → Bool) : Except Error Value := do
  let (a, b) ← integers args
  return .bool (test a b)

/-- An operation on two integers that is defined everywhere. -/
def total (op : Operator) (args : List Value) (result : Int → Int → Int) : Except Error Value := do
  let (a, b) ← integers args
  checked (op.operation a b) (result a.toInt b.toInt)

/-- Quotient or remainder. A remainder needs a quotient that fits, as both come of one division. -/
def division (op : Operator) (args : List Value) (result : Int → Int → Int) :
    Except Error Value := do
  let (a, b) ← integers args
  if b = 0 then
    .error (.divisionByZero (op.operation a b))
  else
    let _ ← checked (op.operation a b) (a.toInt.tdiv b.toInt)
    checked (op.operation a b) (result a.toInt b.toInt)

/-- The result on evaluated operands. -/
def reduce (op : Operator) (args : List Value) : Except Error Value :=
  match op with
  | .eq => do let (a, b) ← pair args; return .bool (a = b)
  | .ne => do let (a, b) ← pair args; return .bool (a ≠ b)
  | .lt => comparison args (· < ·)
  | .le => comparison args (· ≤ ·)
  | .gt => comparison args (· > ·)
  | .ge => comparison args (· ≥ ·)
  | .add =>
    match args with
    | [.str a, b] => .ok (.str (a ++ concatText b))
    | [a, .str b] => .ok (.str (concatText a ++ b))
    | _ => total .add args (· + ·)
  | .sub => total .sub args (· - ·)
  | .mul => total .mul args (· * ·)
  | .div => division .div args Int.tdiv
  | .mod => division .mod args Int.tmod
  | .and => do return .bool ((← booleans args).all id)
  | .or => do return .bool ((← booleans args).any id)
  | .not => do
    match ← booleans args with
    | b :: _ => return .bool !b
    | [] => .error (.protocolViolation "negation reduced without an operand")
  | .neg =>
    match args with
    | [.int n] => checked ("-" ++ Integer.decimal n) (-n.toInt)
    | _ => .error (.protocolViolation "negation reduced with non-integer operand")

end Operator

end Microstep
