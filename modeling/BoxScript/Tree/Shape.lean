/-
  The classes of nodes and their fields.

  * `Shape` is the class of a node, with its name and its fields in order; a field may have
    a value that is taken when it is missing;
  * `Tree.parts?` takes a node apart into its shape and the contents of its fields, and
    `Shape.build?` puts it together again (`Shape.build?_eq_some_iff`).
-/
import BoxScript.Tree.Basic

namespace BoxScript

/-- The classes of nodes. -/
inductive Shape where
  | program | block | variableDeclaration | functionDeclaration | ifStatement | whileStatement
  | forStatement | returnStatement | identifier | numberLiteral | stringLiteral
  | booleanLiteral | arrayLiteral | arrayAccess | property | objectExpression
  | binaryExpression | comparisonExpression | logicalExpression | unaryExpression
  | conditionalExpression | assignmentExpression | callExpression
  deriving DecidableEq, Repr

/-- A field of a node, and what it holds when it is missing, if it may be. -/
structure Field where
  name : String
  default? : Option Tree := none

namespace Shape

/-- All classes of nodes. -/
def all : List Shape :=
  [program, block, variableDeclaration, functionDeclaration, ifStatement, whileStatement,
   forStatement, returnStatement, identifier, numberLiteral, stringLiteral, booleanLiteral,
   arrayLiteral, arrayAccess, property, objectExpression, binaryExpression,
   comparisonExpression, logicalExpression, unaryExpression, conditionalExpression,
   assignmentExpression, callExpression]

/-- The name of a class. -/
def name : Shape → String
  | program => "Program"
  | block => "BlockStatement"
  | variableDeclaration => "VariableDeclaration"
  | functionDeclaration => "FunctionDeclaration"
  | ifStatement => "IfStatement"
  | whileStatement => "WhileStatement"
  | forStatement => "ForStatement"
  | returnStatement => "ReturnStatement"
  | identifier => "Identifier"
  | numberLiteral => "NumberLiteral"
  | stringLiteral => "StringLiteral"
  | booleanLiteral => "BooleanLiteral"
  | arrayLiteral => "ArrayLiteral"
  | arrayAccess => "ArrayAccess"
  | property => "Property"
  | objectExpression => "ObjectExpression"
  | binaryExpression => "BinaryExpression"
  | comparisonExpression => "ComparisonExpression"
  | logicalExpression => "LogicalExpression"
  | unaryExpression => "UnaryExpression"
  | conditionalExpression => "ConditionalExpression"
  | assignmentExpression => "AssignmentExpression"
  | callExpression => "CallExpression"

/-- The class of a name. -/
def ofName? (name : String) : Option Shape := all.find? fun shape => shape.name == name

/-- The fields of a class, in order. -/
def fields : Shape → List Field
  | program | block => [⟨"body", none⟩]
  | variableDeclaration =>
    [⟨"name", none⟩, ⟨"initializer", none⟩, ⟨"constant", some (.bool false)⟩,
     ⟨"is_array", some (.bool false)⟩]
  | functionDeclaration => [⟨"name", none⟩, ⟨"params", none⟩, ⟨"body", none⟩]
  | ifStatement => [⟨"test", none⟩, ⟨"consequent", none⟩, ⟨"alternate", some .null⟩]
  | whileStatement => [⟨"test", none⟩, ⟨"body", none⟩]
  | forStatement => [⟨"loop_var", none⟩, ⟨"start", none⟩, ⟨"end", none⟩, ⟨"body", none⟩]
  | returnStatement => [⟨"argument", none⟩]
  | identifier => [⟨"symbol", none⟩]
  | numberLiteral | stringLiteral | booleanLiteral => [⟨"value", none⟩]
  | arrayLiteral => [⟨"elements", none⟩]
  | arrayAccess => [⟨"array", none⟩, ⟨"index", none⟩]
  | property => [⟨"key", none⟩, ⟨"value", some .null⟩]
  | objectExpression => [⟨"properties", some (.list [])⟩]
  | binaryExpression | comparisonExpression =>
    [⟨"operator", none⟩, ⟨"left", none⟩, ⟨"right", none⟩]
  | logicalExpression => [⟨"operator", none⟩, ⟨"left", none⟩, ⟨"right", some .null⟩]
  | unaryExpression => [⟨"operator", none⟩, ⟨"argument", none⟩]
  | conditionalExpression => [⟨"test", none⟩, ⟨"consequent", none⟩, ⟨"alternate", none⟩]
  | assignmentExpression => [⟨"target", none⟩, ⟨"value", none⟩]
  | callExpression => [⟨"callee", none⟩, ⟨"arguments", none⟩]

/-- The node of a class with the given contents of its fields. -/
def build? : Shape → List Tree → Option Tree
  | program, [body] => some (.program body)
  | block, [body] => some (.block body)
  | variableDeclaration, [name, initializer, constant, isArray] =>
    some (.variableDeclaration name initializer constant isArray)
  | functionDeclaration, [name, params, body] => some (.functionDeclaration name params body)
  | ifStatement, [test, consequent, alternate] => some (.ifStatement test consequent alternate)
  | whileStatement, [test, body] => some (.whileStatement test body)
  | forStatement, [loopVar, start, stop, body] => some (.forStatement loopVar start stop body)
  | returnStatement, [argument] => some (.returnStatement argument)
  | identifier, [symbol] => some (.identifier symbol)
  | numberLiteral, [value] => some (.numberLiteral value)
  | stringLiteral, [value] => some (.stringLiteral value)
  | booleanLiteral, [value] => some (.booleanLiteral value)
  | arrayLiteral, [elements] => some (.arrayLiteral elements)
  | arrayAccess, [array, index] => some (.arrayAccess array index)
  | property, [key, value] => some (.property key value)
  | objectExpression, [properties] => some (.objectExpression properties)
  | binaryExpression, [operator, left, right] => some (.binaryExpression operator left right)
  | comparisonExpression, [operator, left, right] =>
    some (.comparisonExpression operator left right)
  | logicalExpression, [operator, left, right] => some (.logicalExpression operator left right)
  | unaryExpression, [operator, argument] => some (.unaryExpression operator argument)
  | conditionalExpression, [test, consequent, alternate] =>
    some (.conditionalExpression test consequent alternate)
  | assignmentExpression, [target, value] => some (.assignmentExpression target value)
  | callExpression, [callee, arguments] => some (.callExpression callee arguments)
  | _, _ => none

end Shape

namespace Tree

/-- The class of a node and the contents of its fields; `none` for lists and scalars. -/
def parts? : Tree → Option (Shape × List Tree)
  | null | bool _ | int _ | num _ | text _ | list _ => none
  | program body => some (.program, [body])
  | block body => some (.block, [body])
  | variableDeclaration name initializer constant isArray =>
    some (.variableDeclaration, [name, initializer, constant, isArray])
  | functionDeclaration name params body => some (.functionDeclaration, [name, params, body])
  | ifStatement test consequent alternate => some (.ifStatement, [test, consequent, alternate])
  | whileStatement test body => some (.whileStatement, [test, body])
  | forStatement loopVar start stop body => some (.forStatement, [loopVar, start, stop, body])
  | returnStatement argument => some (.returnStatement, [argument])
  | identifier symbol => some (.identifier, [symbol])
  | numberLiteral value => some (.numberLiteral, [value])
  | stringLiteral value => some (.stringLiteral, [value])
  | booleanLiteral value => some (.booleanLiteral, [value])
  | arrayLiteral elements => some (.arrayLiteral, [elements])
  | arrayAccess array index => some (.arrayAccess, [array, index])
  | property key value => some (.property, [key, value])
  | objectExpression properties => some (.objectExpression, [properties])
  | binaryExpression operator left right => some (.binaryExpression, [operator, left, right])
  | comparisonExpression operator left right =>
    some (.comparisonExpression, [operator, left, right])
  | logicalExpression operator left right => some (.logicalExpression, [operator, left, right])
  | unaryExpression operator argument => some (.unaryExpression, [operator, argument])
  | conditionalExpression test consequent alternate =>
    some (.conditionalExpression, [test, consequent, alternate])
  | assignmentExpression target value => some (.assignmentExpression, [target, value])
  | callExpression callee arguments => some (.callExpression, [callee, arguments])

/-- The name of a tree's class, as messages give it. -/
def typeName (t : Tree) : String :=
  match t with
  | null => "NoneType"
  | bool _ => "bool"
  | int _ => "int"
  | num _ => "float"
  | text _ => "str"
  | list _ => "list"
  | node => (node.parts?.map fun (shape, _) => shape.name).getD ""

/-- The text of a scalar, as messages give it; the name of its class for any other tree. -/
def inspectScalar : Tree → String
  | null => "None"
  | bool b => if b then "True" else "False"
  | int n => toString n
  | num x => Number.literal x
  | text s => Text.quoted s
  | t => t.typeName

/-- The text of a tree that stands for itself as a value; `none` if it is nested `depth`
    deep or deeper. -/
def inspect : (depth : Nat) → Tree → Option String
  | 0, _ => none
  | depth + 1, t =>
    match t, t.parts? with
    | list items, _ => do
      let texts ← items.mapM (inspect depth)
      return "[" ++ ", ".intercalate texts ++ "]"
    | _, some (shape, contents) => do
      let texts ← contents.mapM (inspect depth)
      let fields := shape.fields.zipWith (fun field text => field.name ++ "=" ++ text) texts
      return shape.name ++ "(" ++ ", ".intercalate fields ++ ")"
    | scalar, none => some scalar.inspectScalar

/-- What a node holds is smaller than the node. -/
theorem sizeOf_lt_of_parts? {t : Tree} {shape : Shape} {contents : List Tree}
    (h : t.parts? = some (shape, contents)) : ∀ part ∈ contents, sizeOf part < sizeOf t := by
  cases t with
  | null | bool | int | num | text | list => cases h
  | _ =>
    cases h
    simp +arith

end Tree

namespace Shape

/-- **A node is the one that its parts build.** -/
theorem build?_eq_some_iff {shape : Shape} {contents : List Tree} {t : Tree} :
    shape.build? contents = some t ↔ t.parts? = some (shape, contents) := by
  constructor
  · intro h
    unfold build? at h
    split at h <;> cases h <;> rfl
  · intro h
    cases t <;> simp only [Tree.parts?, Option.some.injEq, Prod.mk.injEq, reduceCtorEq] at h <;>
      (obtain ⟨rfl, rfl⟩ := h; rfl)

end Shape

end BoxScript
