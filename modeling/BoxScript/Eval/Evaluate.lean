/-
  Evaluation of trees.

  `evalStep` evaluates one node, given the evaluator for the trees inside it; `evaluate`
  ties the knot and halts when nodes are nested deeper than its limit.  `return` does not
  leave a function: the value of a body is the value of its last statement.

  The branches of `if` and the body of `while` run in the scope that they stand in, each
  pass of `for` in a new scope inside it, and a call in a new scope inside the one that the
  function was declared in.
-/
import BoxScript.Eval.Native
import BoxScript.Value.Operator

namespace BoxScript

/-- Evaluation of a tree in a scope. -/
abbrev Evaluator := Tree → ScopeRef → Run Value

namespace Eval

/-! ## Fields -/

/-- The elements of a field that should be a sequence. -/
def sequence (t : Tree) : Run (List Tree) :=
  match t.items? with
  | some items => pure items
  | none => throw (.fault (.notSequence t.typeName))

/-- The statements of a field that should be a block. -/
def statementsOf (t : Tree) : Run (List Tree) :=
  match t.body? with
  | some body => sequence body
  | none => throw (.fault (.noField t.typeName "body"))

/-- The number that the content of a number literal denotes. -/
def numberOf : Tree → Run Value
  | .num x => pure (.number x)
  | .bool b => pure (.number (if b then 1 else 0))
  | .int n =>
    match Number.ofInt? n with
    | some x => pure (.number x)
    | none => throw (.fault .integerTooLarge)
  | .text s =>
    match Number.read? s with
    | some x => pure (.number x)
    | none => throw (.fault (.unreadableNumber s))
  | t => throw (.fault (.notNumeric t.typeName))

/-! ## Statements -/

/-- Evaluates statements in order.  The value is that of the last one, and null if there
    is none. -/
def block (eval : Evaluator) (statements : List Tree) (scope : ScopeRef) : Run Value :=
  statements.foldlM (fun _ statement => eval statement scope) .null

/-- Declares a variable or a constant. -/
def declaration (cfg : Settings) (depth : Nat) (eval : Evaluator)
    (name initializer constant : Tree) (scope : ScopeRef) : Run Value := do
  let v ← if initializer.isAbsent then pure .null else eval initializer scope
  let name ← Run.nameOf depth name
  Run.declare scope name v constant.isSet
  Run.trace cfg 2 do
    let text ← Run.display depth v
    return "declare " ++ (if constant.isSet then "constant " else "variable ") ++ name.text ++
      ": " ++ v.typeName ++ " = " ++ text
  return v

/-- The texts of parameters, the first of which stands at the given position. -/
def paramTexts (position : Nat) : List Tree → Run (List String)
  | [] => return []
  | .text s :: params => return s :: (← paramTexts (position + 1) params)
  | other :: _ => throw (.fault (.parameterNoText position other.typeName))

/-- Declares a function, which is a constant. -/
def functionDeclaration (cfg : Settings) (depth : Nat) (name params body : Tree)
    (scope : ScopeRef) : Run Value := do
  let params ← sequence params
  let statements ← statementsOf body
  let name ← Run.nameOf depth name
  let f := Value.function ⟨name.text, params, statements, scope⟩
  Run.declare scope name f true
  Run.trace cfg 2 do
    return "define function " ++ name.text ++ "(" ++ ", ".intercalate (← paramTexts 0 params) ++ ")"
  return f

/-- Evaluates the branch that the test chooses. -/
def ifStatement (cfg : Settings) (depth : Nat) (eval : Evaluator)
    (test consequent alternate : Tree) (scope : ScopeRef) : Run Value := do
  let v ← eval test scope
  Run.trace cfg 3 do
    let text ← Run.display depth v
    return "if condition " ++ text ++ " -> " ++ (if v.isTruthy then "True" else "False")
  if v.isTruthy then block eval (← statementsOf consequent) scope
  else if alternate.isAbsent then return .null
  else block eval (← statementsOf alternate) scope

/-- Repeats `pass` as long as `test` gives true, at most `passes` times. -/
def whilePasses (test : Run Bool) (pass : Run Unit) : (passes : Nat) → Run Value
  | 0 => throw .unfinished
  | passes + 1 => do
    if ← test then
      pass
      whilePasses test pass passes
    else return .null

/-- The test of a `while` statement. -/
def whileTest (cfg : Settings) (eval : Evaluator) (test : Tree) (scope : ScopeRef) :
    Run Bool := do
  match ← eval test scope with
  | .boolean b =>
    Run.trace cfg 3 do return "while condition -> " ++ (if b then "true" else "false")
    return b
  | other => Run.fail (.whileType other.typeName)

/-- Evaluates the body, in the same scope, as long as the test gives true. -/
def whileStatement (cfg : Settings) (eval : Evaluator) (test body : Tree)
    (scope : ScopeRef) : Run Value :=
  whilePasses (whileTest cfg eval test scope)
    (do discard (block eval (← statementsOf body) scope)) cfg.passes

/-- Runs `pass` for the counts from `count` to `stop`, at most `passes` times. -/
def forPasses (stop : Float) (pass : Float → Run Unit) : (passes : Nat) → Float → Run Value
  | 0, _ => throw .unfinished
  | passes + 1, count => do
    if count ≤ stop then
      pass count
      forPasses stop pass passes (count + 1)
    else return .null

/-- One pass of a `for` statement: the body in a new scope that binds the count. -/
def forPass (cfg : Settings) (depth : Nat) (eval : Evaluator) (loopVar body : Tree)
    (scope : ScopeRef) (count : Float) : Run Unit := do
  Run.trace cfg 3 do
    let text ← Run.spelling depth loopVar
    return "for " ++ text ++ " = " ++ (← Run.display depth (.number count))
  let inner ← Run.newScope scope
  Run.declare inner (← Run.nameOf depth loopVar) (.number count) false
  discard (block eval (← statementsOf body) inner)

/-- Evaluates the body for each count from `start` to `stop`, each time in a new scope. -/
def forStatement (cfg : Settings) (depth : Nat) (eval : Evaluator)
    (loopVar start stop body : Tree) (scope : ScopeRef) : Run Value := do
  let first ← eval start scope
  let last ← eval stop scope
  match first, last with
  | .number first, .number last =>
    forPasses last (forPass cfg depth eval loopVar body scope) cfg.passes first
  | _, _ => Run.fail (.boundTypes first.typeName last.typeName)

/-! ## Expressions -/

/-- The position that a value denotes in an array of the given length. -/
def position (depth : Nat) (index : Value) (length : Nat) : Run Nat := do
  match index with
  | .number x =>
    match Number.whole? x with
    | some n =>
      if 0 ≤ n ∧ n < length then return n.toNat
      else Run.fail (.indexOutOfBounds n length)
    | none => Run.fail (.indexNotWhole (← Run.display depth index))
  | _ => Run.fail (.indexNotWhole (← Run.display depth index))

/-- The array and the position that `array[index]` denotes. -/
def element (depth : Nat) (eval : Evaluator) (array index : Tree) (scope : ScopeRef) :
    Run (ArrayRef × Nat) := do
  let base ← eval array scope
  let place ← eval index scope
  match base with
  | .array r => return (r, ← position depth place ((← Run.store).items r).size)
  | other => Run.fail (.notIndexable other.typeName)

/-- The value of `array[index]`. -/
def access (depth : Nat) (eval : Evaluator) (array index : Tree) (scope : ScopeRef) :
    Run Value := do
  let (r, i) ← element depth eval array index scope
  return ((← Run.store).items r)[i]?.getD .null

/-- Assigns to a name, or to an element that is looked for before the value. -/
def assignment (depth : Nat) (eval : Evaluator) (target value : Tree) (scope : ScopeRef) :
    Run Value := do
  match target with
  | .arrayAccess array index =>
    let (r, i) ← element depth eval array index scope
    let v ← eval value scope
    Run.setItem r i v
    return v
  | .identifier symbol =>
    let v ← eval value scope
    Run.assign scope (← Run.nameOf depth symbol) v
    return v
  | other => Run.fail (.invalidTarget other.typeName)

/-- A value that must be a boolean operand of `operator`. -/
def booleanOperand (depth : Nat) (operator : Tree) : Value → Run Bool
  | .boolean b => pure b
  | other => do Run.fail (.logicalType (← Run.spelling depth operator) other.typeName)

/-- Evaluates `not`, `and` and `or`; the last two leave the right operand out if the left
    one decides. -/
def logical (depth : Nat) (eval : Evaluator) (operator left right : Tree) (scope : ScopeRef) :
    Run Value := do
  let a ← booleanOperand depth operator (← eval left scope)
  let rest : Run Value := do
    return .boolean (← booleanOperand depth operator (← eval right scope))
  match operator with
  | .text "not" => return .boolean (!a)
  | .text "and" => if a then rest else return .boolean false
  | .text "or" => if a then return .boolean true else rest
  | other => Run.fail (.unknownLogical (← Run.spelling depth other))

/-- The value of a property of an object, and its name, which is read last.  A property without a
    value takes that of the variable of its name. -/
def property (depth : Nat) (eval : Evaluator) (key value : Tree) (scope : ScopeRef) :
    Run (Name × Value) := do
  if value.isAbsent then
    let name ← Run.nameOf depth key
    return (name, ← Run.lookup scope name)
  else
    let v ← eval value scope
    return (← Run.nameOf depth key, v)

/-- Evaluates the properties of an object in order. -/
def properties (depth : Nat) (eval : Evaluator) (scope : ScopeRef) (done : List (Name × Value)) :
    List Tree → Run (List (Name × Value))
  | [] => return done
  | .property key value :: rest => do
    let (name, v) ← property depth eval key value scope
    properties depth eval scope (Store.insertEntry done name v) rest
  | other :: _ =>
    match other.value? with
    | none => throw (.fault (.noField other.typeName "value"))
    | some value => do
      unless value.isAbsent do discard (eval value scope)
      throw (.fault (.noField other.typeName "key"))

/-! ## Calls -/

/-- Binds the parameters in a scope; a missing argument is null, and one too many is
    dropped. -/
def bindParams (depth : Nat) (scope : ScopeRef) : List Tree → List Value → Run Unit
  | [], _ => return ()
  | p :: params, [] => do
    Run.declare scope (← Run.nameOf depth p) .null false
    bindParams depth scope params []
  | p :: params, v :: args => do
    Run.declare scope (← Run.nameOf depth p) v false
    bindParams depth scope params args

/-- The arguments of a call as trace lines give them. -/
def argumentText (depth : Nat) (args : List Value) : Run String := do
  return ", ".intercalate (← args.mapM (Run.display depth))

/-- Calls a function of the program. -/
def callClosure (cfg : Settings) (depth : Nat) (eval : Evaluator) (f : Closure)
    (args : List Value) : Run Value := do
  Run.trace cfg 4 do return "call " ++ f.name ++ "(" ++ (← argumentText depth args) ++ ")"
  let inner ← Run.newScope f.scope
  bindParams depth inner f.params args
  block eval f.body inner

/-- Calls a native function. -/
def callNative (cfg : Settings) (depth : Nat) (f : Native) (args : List Value)
    (scope : ScopeRef) : Run Value := do
  match f.arity with
  | some n => if args.length ≠ n then Run.fail (.arity f.name n args.length)
  | none => pure ()
  Run.trace cfg 4 do
    return "call native " ++ f.name ++ "(" ++ (← argumentText depth args) ++ ")"
  Native.perform depth scope args f.action

/-- Calls a value. -/
def call (cfg : Settings) (depth : Nat) (eval : Evaluator) (f : Value) (args : List Value)
    (scope : ScopeRef) : Run Value :=
  match f with
  | .function f => callClosure cfg depth eval f args
  | .native f => callNative cfg depth f args scope
  | other => Run.fail (.notCallable other.typeName)

/-! ## Trees -/

/-- Evaluates a tree; `eval` evaluates the trees inside it, and values are shown up to the
    given depth. -/
def evalStep (cfg : Settings) (depth : Nat) (eval : Evaluator) (t : Tree)
    (scope : ScopeRef) : Run Value := do
  match t with
  | .program body => block eval (← sequence body) scope
  | .block body => block eval (← sequence body) scope
  | .variableDeclaration name initializer constant _ =>
    declaration cfg depth eval name initializer constant scope
  | .functionDeclaration name params body => functionDeclaration cfg depth name params body scope
  | .ifStatement test consequent alternate =>
    ifStatement cfg depth eval test consequent alternate scope
  | .whileStatement test body => whileStatement cfg eval test body scope
  | .forStatement loopVar start stop body =>
    forStatement cfg depth eval loopVar start stop body scope
  | .returnStatement argument => if argument.isAbsent then return .null else eval argument scope
  | .identifier symbol => Run.lookup scope (← Run.nameOf depth symbol)
  | .numberLiteral value => numberOf value
  | .stringLiteral value => return .ofContent value
  | .booleanLiteral value => return .ofContent value
  | .arrayLiteral elements =>
    Run.newArray (← (← sequence elements).mapM fun e => eval e scope)
  | .arrayAccess array index => access depth eval array index scope
  | .objectExpression props =>
    Run.newObject (← properties depth eval scope [] (← sequence props))
  | .binaryExpression operator left right =>
    let a ← eval left scope
    let b ← eval right scope
    Run.lift (Value.binary (← Run.nameOf depth operator).text a b)
  | .comparisonExpression operator left right =>
    let a ← eval left scope
    let b ← eval right scope
    Run.lift (Value.compare (← Run.nameOf depth operator).text a b)
  | .logicalExpression operator left right => logical depth eval operator left right scope
  | .unaryExpression operator argument =>
    let a ← eval argument scope
    Run.lift (Value.unary (← Run.nameOf depth operator).text a)
  | .conditionalExpression test consequent alternate =>
    match ← eval test scope with
    | .boolean true => eval consequent scope
    | .boolean false => eval alternate scope
    | other => Run.fail (.conditionType other.typeName)
  | .assignmentExpression target value => assignment depth eval target value scope
  | .callExpression callee arguments =>
    let f ← eval callee scope
    let args ← (← sequence arguments).mapM fun a => eval a scope
    call cfg depth eval f args scope
  | other => Run.fail (.unsupportedNode other.typeName)

end Eval

/-- Evaluates a tree in a scope, with at most `depth` nodes inside each other. -/
def evaluate (cfg : Settings) : (depth : Nat) → Evaluator
  | 0 => fun _ _ => throw .overflow
  | depth + 1 => Eval.evalStep cfg depth (evaluate cfg depth)

/-- Calls a value with arguments. -/
def callValue (cfg : Settings) : (depth : Nat) → Value → List Value → ScopeRef → Run Value
  | 0 => fun _ _ _ => throw .overflow
  | depth + 1 => Eval.call cfg depth (evaluate cfg depth)

end BoxScript
