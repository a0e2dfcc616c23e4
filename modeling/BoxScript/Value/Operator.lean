/-
  Operators.

  An operator has several spellings.  `applyArithmetic` and `applyComparison` take operands
  that are numbers; `Value.binary` and `Value.compare` look an operator up by its spelling
  and check the operands.
-/
import BoxScript.Value.Basic
import BoxScript.Value.Error

namespace BoxScript

/-- The operators of calculation. -/
inductive Arithmetic where
  | add | subtract | multiply | divide
  deriving DecidableEq, Repr

/-- The operators of comparison. -/
inductive Comparison where
  | equal | notEqual | less | lessOrEqual | greater | greaterOrEqual
  deriving DecidableEq, Repr

namespace Arithmetic

/-- The spellings of the operators of calculation. -/
def spellings : List (String × Arithmetic) :=
  [("+", add), ("add", add), ("-", subtract), ("subtract", subtract), ("*", multiply),
   ("multiply", multiply), ("/", divide), ("divide", divide)]

/-- The operator of a spelling. -/
def ofText? (text : String) : Option Arithmetic := spellings.lookup text

/-- The result of a calculation. -/
def apply (op : Arithmetic) (a b : Float) : Except EvalError Float :=
  match op with
  | add => .ok (a + b)
  | subtract => .ok (a - b)
  | multiply => .ok (a * b)
  | divide => if b == 0 then .error .divisionByZero else .ok (a / b)

end Arithmetic

namespace Comparison

/-- The spellings of the operators of comparison. -/
def spellings : List (String × Comparison) :=
  [("==", equal), ("equals", equal), ("is", equal),
   ("!=", notEqual), ("!", notEqual), ("notEqual", notEqual),
   ("<", less), ("lessThan", less),
   ("<=", lessOrEqual), ("lessThanOrEquals", lessOrEqual), ("lessThanOrEqual", lessOrEqual),
   (">", greater), ("greaterThan", greater),
   (">=", greaterOrEqual), ("greaterThanOrEquals", greaterOrEqual),
   ("greaterThanOrEqual", greaterOrEqual)]

/-- The operator of a spelling. -/
def ofText? (text : String) : Option Comparison := spellings.lookup text

/-- The result of a comparison. -/
def apply (op : Comparison) (a b : Float) : Bool :=
  match op with
  | equal => a == b
  | notEqual => a != b
  | less => a < b
  | lessOrEqual => a ≤ b
  | greater => b < a
  | greaterOrEqual => b ≤ a

end Comparison

namespace Value

/-- Is the text a spelling of the sign that negates a number? -/
def isNegation (operator : String) : Bool := operator == "-" || operator == "subtract"

/-- The comparison that is spelled `operator`, applied to two values. -/
def compare (operator : String) (a b : Value) : Except EvalError Value :=
  match Comparison.ofText? operator with
  | none => .error (.unknownComparison operator)
  | some op =>
    match a, b with
    | number x, number y => .ok (boolean (op.apply x y))
    | _, _ => .error (.comparisonTypes operator a.typeName b.typeName)

/-- The calculation or comparison that is spelled `operator`, applied to two values. -/
def binary (operator : String) (a b : Value) : Except EvalError Value :=
  if (Comparison.ofText? operator).isSome then compare operator a b
  else match Arithmetic.ofText? operator with
    | none => .error (.unknownArithmetic operator)
    | some op =>
      match a, b with
      | number x, number y => (op.apply x y).map number
      | _, _ => .error (.arithmeticTypes operator a.typeName b.typeName)

/-- The negation that is spelled `operator`, applied to a value. -/
def unary (operator : String) (a : Value) : Except EvalError Value :=
  if isNegation operator then
    match a with
    | number x => .ok (number (-x))
    | _ => .error (.unaryType operator a.typeName)
  else .error (.unknownUnary operator)

end Value

end BoxScript
