/-
  Errors of evaluation.

  * `EvalError` is an error of the language: its cause, with the name under which it is
    reported (`EvalError.name`) and its wording (`EvalError.message`);
  * `Fault` is the misuse of a loosely typed tree, which no program text can bring about.
-/
import BoxScript.Report
import BoxScript.Text.Quoted

namespace BoxScript

/-- Errors of the language.  Types are given by their names. -/
inductive EvalError where
  | duplicateDeclaration (name : String)
  | unknownVariable (name : String)
  | constantViolation (name : String)
  | divisionByZero
  | arithmeticTypes (operator left right : String)
  | comparisonTypes (operator left right : String)
  | logicalType (operator operand : String)
  | unaryType (operator operand : String)
  | conditionType (test : String)
  | whileType (test : String)
  | boundTypes (start stop : String)
  | invalidTarget (target : String)
  | notIndexable (type : String)
  | indexNotWhole (text : String)
  | indexOutOfBounds (position : Int) (length : Nat)
  | notCallable (type : String)
  | arity (name : String) (expected given : Nat)
  | inputArity
  | inputName
  | inputType (name type : String)
  | lengthType (type : String)
  | unknownArithmetic (operator : String)
  | unknownComparison (operator : String)
  | unknownLogical (operator : String)
  | unknownUnary (operator : String)
  | unsupportedNode (type : String)
  | stackOverflow
  deriving DecidableEq, Repr

namespace EvalError

/-- The name under which an error is reported. -/
def name : EvalError → String
  | duplicateDeclaration _ => "DuplicateDeclaration"
  | unknownVariable _ => "UnknownVariable"
  | constantViolation _ => "ConstantViolation"
  | divisionByZero => "DivisionByZero"
  | arithmeticTypes .. | comparisonTypes .. | logicalType .. | unaryType .. | conditionType _
  | whileType _ | boundTypes .. | invalidTarget _ | inputName | inputType .. => "TypeMismatch"
  | notIndexable _ | lengthType _ => "NotAnArray"
  | indexNotWhole _ => "IndexNotNumeric"
  | indexOutOfBounds .. => "IndexOutOfBounds"
  | notCallable _ => "NotCallable"
  | arity .. | inputArity => "ArityMismatch"
  | unknownArithmetic _ | unknownComparison _ | unknownLogical _ | unknownUnary _ =>
    "UnknownOperator"
  | unsupportedNode _ => "UnsupportedNode"
  | stackOverflow => "StackOverflow"

/-- The wording of an error. -/
def message : EvalError → String
  | duplicateDeclaration n => "cannot declare " ++ n ++ ": it is already defined in this scope"
  | unknownVariable n => "variable " ++ n ++ " is not defined"
  | constantViolation n => "cannot assign to " ++ n ++ ": it was declared constant"
  | divisionByZero => "division by zero"
  | arithmeticTypes op a b => "unsupported " ++ op ++ " for " ++ a ++ " and " ++ b
  | comparisonTypes op a b => "comparison " ++ op ++ " requires Numbers, got " ++ a ++ " and " ++ b
  | logicalType op a => "logical '" ++ op ++ "' requires Boolean operands, got " ++ a
  | unaryType op a => "unary " ++ op ++ " expects a Number, got " ++ a
  | conditionType a => "condition must be a Boolean, got " ++ a
  | whileType a => "while condition must be a Boolean, got " ++ a
  | boundTypes a b => "for loop bounds must be Numbers, got " ++ a ++ " and " ++ b
  | invalidTarget t => "invalid assignment target " ++ t
  | notIndexable t => "cannot index a value of type " ++ t
  | indexNotWhole text => "array index must be a whole Number, got " ++ text
  | indexOutOfBounds position length =>
    "array index " ++ toString position ++ " out of range for length " ++ toString length
  | notCallable t => "a value of type " ++ t ++ " is not callable"
  | arity n expected given =>
    n ++ " expects " ++ toString expected ++ " arguments, got " ++ toString given
  | inputArity => "input(name, prompt) expects 1 or 2 arguments"
  | inputName => "input name argument must be a String"
  | inputType n t => "input cannot read into " ++ n ++ " of type " ++ t
  | lengthType t => "length expects an Array, got " ++ t
  | unknownArithmetic op => "unknown operator " ++ op
  | unknownComparison op => "unknown comparison operator " ++ op
  | unknownLogical op => "unsupported logical operator " ++ op
  | unknownUnary op => "unsupported unary operator " ++ op
  | unsupportedNode t => "cannot evaluate node of type " ++ t
  | stackOverflow => "maximum call depth exceeded"

/-- The error as a user reads it. -/
def report (e : EvalError) : Report where
  name := e.name
  message := e.message

end EvalError

/-- Misuses of a loosely typed tree. -/
inductive Fault where
  /-- A tree of this class is no sequence. -/
  | notSequence (type : String)
  /-- A tree of this class, where statements should be, has no length. -/
  | noLength (type : String)
  /-- A tree of this class lacks a field. -/
  | noField (type field : String)
  /-- A tree of this class is no number. -/
  | notNumeric (type : String)
  /-- The text does not denote a number. -/
  | unreadableNumber (text : String)
  /-- The integer is beyond the greatest number. -/
  | integerTooLarge
  /-- A tree with a list in it is no name. -/
  | noName
  /-- The parameter at this position is no text, but a tree of this class. -/
  | parameterNoText (position : Nat) (type : String)
  deriving DecidableEq, Repr

/-- The wording of a fault. -/
def Fault.message : Fault → String
  | notSequence t => Text.quoted t ++ " object is not iterable"
  | noLength t => "object of type " ++ Text.quoted t ++ " has no len()"
  | noField t f => Text.quoted t ++ " object has no attribute " ++ Text.quoted f
  | notNumeric t => "float() argument must be a string or a real number, not " ++ Text.quoted t
  | unreadableNumber s => "could not convert string to float: " ++ Text.quoted s
  | integerTooLarge => "int too large to convert to float"
  | noName => "unhashable type: 'list'"
  | parameterNoText i t =>
    "sequence item " ++ toString i ++ ": expected str instance, " ++ t ++ " found"

end BoxScript
