/-
  Expressions.

  Operators have no precedence: an expression is a chain of primaries that is nested to the
  left (`chain`).  There are three chains: `expression` joins primaries by the operators of
  calculation and comparison, `comparison` by those of comparison only, and `condition`
  joins comparisons by `and` and `or`.  In parentheses, expressions may be joined by `and`
  and `or` as well.

  Every form that contains another one is a function of the parser for what it contains;
  `primary` ties the knot, one level of nesting at a time.
-/
import BoxScript.Grammar.Cursor
import BoxScript.Number.Reading
import BoxScript.Tree.Basic

namespace BoxScript.Grammar

open Parse

/-- Joins further operands to `left`, at most `rounds` of them. -/
def chainRest (operand : Parse Tree) (joins : Kind → Bool) (join : Tree → Tree → Tree → Tree) :
    (rounds : Nat) → Tree → Parse Tree
  | 0, left => return left
  | rounds + 1, left => do
    if joins (← kind) then
      let operator ← advance
      let right ← operand
      chainRest operand joins join rounds (join (.text operator.text) left right)
    else return left

/-- Operands joined by operators, nested to the left. -/
def chain (operand : Parse Tree) (joins : Kind → Bool) (join : Tree → Tree → Tree → Tree) :
    Parse Tree := do
  let first ← operand
  chainRest operand joins join (← remaining) first

/-- An expression: primaries joined by operators of calculation and comparison. -/
def expression (primary : Parse Tree) : Parse Tree :=
  chain primary (fun k => k.isArithmetic || k.isComparison) .binaryExpression

/-- Primaries joined by operators of comparison. -/
def comparison (primary : Parse Tree) : Parse Tree :=
  chain primary Kind.isComparison .comparisonExpression

/-- A condition: comparisons joined by `and` and `or`. -/
def condition (primary : Parse Tree) : Parse Tree :=
  chain (comparison primary) Kind.isLogical .logicalExpression

/-- What stands in parentheses, with the parentheses. -/
def group (primary : Parse Tree) : Parse Tree := do
  discard advance
  let inner ← chain (expression primary) Kind.isLogical .logicalExpression
  discard (expect .endParams .groupClose)
  return inner

/-- Between two elements of an array: a comma is taken, and so is any other token that can
    neither end the array nor begin an element. -/
def skipSeparator : Parse Unit := do
  let k ← kind
  if k = .comma ∨ (k ≠ .closeArray ∧ !k.startsElement) then discard advance

/-- The further elements of an array and its closing bracket, at most `rounds` elements. -/
def elements (primary : Parse Tree) : (rounds : Nat) → Parse (List Tree)
  | 0 => return []
  | rounds + 1 => do
    match ← kind with
    | .closeArray =>
      discard advance
      return []
    | .endOfInput => refuse (.expected .arrayClose)
    | _ =>
      let element ← expression primary
      skipSeparator
      return element :: (← elements primary rounds)

/-- An array of elements in brackets. -/
def arrayLiteral (primary : Parse Tree) : Parse Tree := do
  discard (expect .openArray .arrayOpen)
  let items ← elements primary ((← remaining) + 1)
  return .arrayLiteral (.list items)

/-- The further arguments of a call and the closing parenthesis, at most `rounds`
    arguments.  A comma after an argument may be left out. -/
def arguments (primary : Parse Tree) : (rounds : Nat) → Parse (List Tree)
  | 0 => return []
  | rounds + 1 => do
    match ← kind with
    | .endParams =>
      discard advance
      return []
    | .endOfInput => refuse (.expected .argumentsClose)
    | _ =>
      let argument ← expression primary
      skipIf .comma
      return argument :: (← arguments primary rounds)

/-- Indices and argument lists after the tree `base`, at most `rounds` of them. -/
def suffixes (primary : Parse Tree) : (rounds : Nat) → Tree → Parse Tree
  | 0, base => return base
  | rounds + 1, base => do
    match ← kind with
    | .openArray =>
      discard advance
      let index ← expression primary
      discard (expect .closeArray .indexClose)
      suffixes primary rounds (.arrayAccess base index)
    | .beginParams =>
      discard advance
      let args ← arguments primary ((← remaining) + 1)
      suffixes primary rounds (.callExpression base (.list args))
    | _ => return base

/-- A name with the indices and argument lists after it. -/
def named (primary : Parse Tree) (name : String) : Parse Tree := do
  suffixes primary (← remaining) (.identifier (.text name))

/-- Does the current token serve as a name?  `subtract` does so only before a parenthesis;
    elsewhere it is a sign. -/
def atName (c : Cursor) : Bool :=
  c.current.kind = .identifier ||
    (c.current.isWordOperator &&
      (c.current.kind != .minus || c.lookahead.kind == .beginParams))

/-- A primary; `deeper` parses the primaries inside it. -/
def primaryStep (deeper : Parse Tree) : Parse Tree := do
  if atName (← get) then
    let name ← advance
    named deeper name.text
  else match ← kind with
    | .number =>
      let token ← advance
      match Number.read? token.text with
      | some x => return .numberLiteral (.num x)
      | none => throw (.unreadableNumber token.text)
    | .string => return .stringLiteral (.text (← advance).text)
    | .boolean => return .booleanLiteral (.bool ((← advance).text == "true"))
    | .openArray => arrayLiteral deeper
    | .beginParams => group deeper
    | .minus =>
      let sign ← advance
      return .unaryExpression (.text sign.text) (← deeper)
    | .notKw =>
      discard advance
      return .logicalExpression (.text "not") (← deeper) .null
    | _ => refuse .inExpression

/-- A primary with at most `depth` levels of nesting. -/
def primary : (depth : Nat) → Parse Tree
  | 0 => throw .tooDeep
  | depth + 1 => primaryStep (primary depth)

end BoxScript.Grammar
