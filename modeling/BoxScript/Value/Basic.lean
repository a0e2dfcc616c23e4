/-
  Values.

  Arrays and objects are held by reference, so that two names for one array see each
  other's writes; a function holds a reference to the scope that it was declared in.
  A literal of a loosely typed tree can hold what is no value of the language; evaluation
  hands it on as it is (`Value.datum`).

  * `Value.typeName` names the type of a value;
  * `Value.isTruthy` is the test that `if` makes.
-/
import BoxScript.Tree.Shape

namespace BoxScript

/-- A reference to a scope of a store. -/
structure ScopeRef where
  index : Nat
  deriving DecidableEq, Repr, Inhabited

/-- A reference to an array of a store. -/
structure ArrayRef where
  index : Nat
  deriving DecidableEq, Repr, Inhabited

/-- A reference to an object of a store. -/
structure ObjectRef where
  index : Nat
  deriving DecidableEq, Repr, Inhabited

/-- What a native function does.  The action `none` returns null and does nothing. -/
inductive Action where
  | print | input | time | length | none
  deriving DecidableEq, Repr

/-- A native function.  Without an arity it takes any number of arguments. -/
structure Native where
  name : String
  arity : Option Nat
  action : Action
  deriving DecidableEq, Repr

/-- A function of the program, with the scope that it was declared in.  Its parameters are read as
    names when it is called. -/
structure Closure where
  name : String
  params : List Tree
  body : List Tree
  scope : ScopeRef
  deriving Repr

/-- A value. -/
inductive Value where
  | null
  | boolean (b : Bool)
  | number (x : Float)
  | string (s : String)
  | array (ref : ArrayRef)
  | object (ref : ObjectRef)
  | function (f : Closure)
  | native (f : Native)
  | datum (t : Tree)
  deriving Repr, Inhabited

namespace Value

/-- The name of a value's type. -/
def typeName : Value → String
  | null => "Null"
  | boolean _ => "Boolean"
  | number _ => "Number"
  | string _ => "String"
  | array _ => "Array"
  | object _ => "Object"
  | function _ => "Function"
  | native _ => "NativeFunction"
  | datum t => t.typeName

/-- Does a condition with this value hold?  False, null, zero and the empty text do not. -/
def isTruthy : Value → Bool
  | null => false
  | boolean b => b
  | number x => x != 0
  | string s => s != ""
  | _ => true

/-- Is the value null? -/
def isNull : Value → Bool
  | null => true
  | _ => false

/-- Is the value a number? -/
def isNumber : Value → Bool
  | number _ => true
  | _ => false

/-- What a text or boolean literal evaluates to: the value that its content is, if it is
    one. -/
def ofContent : Tree → Value
  | .text s => string s
  | .bool b => boolean b
  | .num x => number x
  | t => datum t

end Value

end BoxScript
