/-
  Program trees.

  A tree is a node of the language, a list of trees or a scalar.  Trees can be loaded from
  documents that were not made by parsing a program, and loading checks the name of a node
  and which fields it has, but not what the fields hold.  So every field holds a tree, and
  what is wrong in one shows only when evaluation comes to it.

  * `Tree.typeName` is the name of a tree's class;
  * `Tree.items?`, `Tree.body?`, `Tree.value?` and `Tree.isSet` read a field as a sequence, a
    holder of statements, a holder of a value and a flag.
-/
import BoxScript.Number.Layout
import BoxScript.Text.Quoted

namespace BoxScript

/-- A program tree. -/
inductive Tree where
  | null
  | bool (b : Bool)
  | int (n : Int)
  | num (x : Float)
  | text (s : String)
  | list (items : List Tree)
  | program (body : Tree)
  | block (body : Tree)
  | variableDeclaration (name initializer constant isArray : Tree)
  | functionDeclaration (name params body : Tree)
  | ifStatement (test consequent alternate : Tree)
  | whileStatement (test body : Tree)
  | forStatement (loopVar start stop body : Tree)
  | returnStatement (argument : Tree)
  | identifier (symbol : Tree)
  | numberLiteral (value : Tree)
  | stringLiteral (value : Tree)
  | booleanLiteral (value : Tree)
  | arrayLiteral (elements : Tree)
  | arrayAccess (array index : Tree)
  | property (key value : Tree)
  | objectExpression (properties : Tree)
  | binaryExpression (operator left right : Tree)
  | comparisonExpression (operator left right : Tree)
  | logicalExpression (operator left right : Tree)
  | unaryExpression (operator argument : Tree)
  | conditionalExpression (test consequent alternate : Tree)
  | assignmentExpression (target value : Tree)
  | callExpression (callee arguments : Tree)
  deriving Inhabited, Repr

namespace Tree

/-- The elements of a sequence: those of a list, or the characters of a text. -/
def items? : Tree → Option (List Tree)
  | list items => some items
  | text s => some (s.toList.map fun c => text c.toString)
  | _ => none

/-- The statements that a node holds, for the nodes that have such a field. -/
def body? : Tree → Option Tree
  | program body | block body | functionDeclaration _ _ body | whileStatement _ body
  | forStatement _ _ _ body => some body
  | _ => none

/-- The value that a node holds, for the nodes that have such a field. -/
def value? : Tree → Option Tree
  | numberLiteral value | stringLiteral value | booleanLiteral value | property _ value
  | assignmentExpression _ value => some value
  | _ => none

/-- Is a flag set?  Absent, false, zero and empty are not. -/
def isSet : Tree → Bool
  | null => false
  | bool b => b
  | int n => n != 0
  | num x => x != 0
  | text s => s != ""
  | list items => !items.isEmpty
  | _ => true

/-- Is the field left out? -/
def isAbsent : Tree → Bool
  | null => true
  | _ => false

end Tree

end BoxScript
