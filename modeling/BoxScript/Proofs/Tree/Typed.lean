/-
  Trees whose fields hold what they are declared to hold.

  A typed tree has a node in each field for a node, a list of nodes in each field for a list, and so
  on.  Any node may stand where a node is asked for, and operators are any texts, so evaluation may
  still come to a node or an operator that it does not know.
-/
import BoxScript.Tree.Basic

namespace BoxScript.Tree

/-- The tree is a node, and all its fields hold what they are declared to hold. -/
inductive Typed : Tree → Prop
  | number (x : Float) : Typed (.numberLiteral (.num x))
  | string (s : String) : Typed (.stringLiteral (.text s))
  | boolean (b : Bool) : Typed (.booleanLiteral (.bool b))
  | identifier (s : String) : Typed (.identifier (.text s))
  | array {items} (h : ∀ t ∈ items, Typed t) : Typed (.arrayLiteral (.list items))
  | access {a i} (ha : Typed a) (hi : Typed i) : Typed (.arrayAccess a i)
  | property {key value} (h : value.isAbsent = false → Typed value) :
      Typed (.property (.text key) value)
  | object {props} (hp : ∀ p ∈ props, ∃ key value, p = .property key value)
      (h : ∀ p ∈ props, Typed p) : Typed (.objectExpression (.list props))
  | binary {op a b} (ha : Typed a) (hb : Typed b) : Typed (.binaryExpression (.text op) a b)
  | comparison {op a b} (ha : Typed a) (hb : Typed b) :
      Typed (.comparisonExpression (.text op) a b)
  | logical {op a b} (ha : Typed a) (hb : b.isAbsent = false → Typed b) :
      Typed (.logicalExpression (.text op) a b)
  | unary {op a} (ha : Typed a) : Typed (.unaryExpression (.text op) a)
  | conditional {test a b} (ht : Typed test) (ha : Typed a) (hb : Typed b) :
      Typed (.conditionalExpression test a b)
  | assign {target value} (ht : Typed target) (hv : Typed value) :
      Typed (.assignmentExpression target value)
  | call {f args} (hf : Typed f) (h : ∀ t ∈ args, Typed t) :
      Typed (.callExpression f (.list args))
  | declaration {name init constant isArray} (h : init.isAbsent = false → Typed init) :
      Typed (.variableDeclaration (.text name) init (.bool constant) (.bool isArray))
  | function {name} {params : List String} {items} (h : ∀ t ∈ items, Typed t) :
      Typed (.functionDeclaration (.text name) (.list (params.map .text)) (.block (.list items)))
  | ifThen {test items} (ht : Typed test) (h : ∀ t ∈ items, Typed t) :
      Typed (.ifStatement test (.block (.list items)) .null)
  | ifElse {test items items'} (ht : Typed test) (h : ∀ t ∈ items, Typed t)
      (h' : ∀ t ∈ items', Typed t) :
      Typed (.ifStatement test (.block (.list items)) (.block (.list items')))
  | whileDo {test items} (ht : Typed test) (h : ∀ t ∈ items, Typed t) :
      Typed (.whileStatement test (.block (.list items)))
  | forTo {name start stop items} (hs : Typed start) (ht : Typed stop)
      (h : ∀ t ∈ items, Typed t) :
      Typed (.forStatement (.text name) start stop (.block (.list items)))
  | returning {value} (h : value.isAbsent = false → Typed value) :
      Typed (.returnStatement value)
  | block {items} (h : ∀ t ∈ items, Typed t) : Typed (.block (.list items))
  | program {items} (h : ∀ t ∈ items, Typed t) : Typed (.program (.list items))

end BoxScript.Tree
