/-
  Trees of proper shape.

  A tree is loosely typed: a field can hold anything.  A proper tree has in each field what a
  program text can put there, and its operators are ones that evaluation knows.

  * `Tree.Proper` is the shape of statements, expressions and programs;
  * `Tree.ProperItems` is the shape of the fields that hold a list of them, and `Tree.TextItems`
    that of parameters.
-/
import BoxScript.Value.Operator

namespace BoxScript.Tree

/-- The tree has the shape that evaluation expects, in all its fields. -/
inductive Proper : Tree → Prop
  | number (x : Float) : Proper (.numberLiteral (.num x))
  | string (s : String) : Proper (.stringLiteral (.text s))
  | boolean (b : Bool) : Proper (.booleanLiteral (.bool b))
  | identifier (s : String) : Proper (.identifier (.text s))
  | array {items} (h : ∀ t ∈ items, Proper t) : Proper (.arrayLiteral (.list items))
  | access {a i} (ha : Proper a) (hi : Proper i) : Proper (.arrayAccess a i)
  | call {f args} (hf : Proper f) (h : ∀ t ∈ args, Proper t) :
      Proper (.callExpression f (.list args))
  | binary {op a b}
      (ho : (Comparison.ofText? op).isSome = true ∨ (Arithmetic.ofText? op).isSome = true)
      (ha : Proper a) (hb : Proper b) : Proper (.binaryExpression (.text op) a b)
  | comparison {op a b} (ho : (Comparison.ofText? op).isSome = true) (ha : Proper a)
      (hb : Proper b) : Proper (.comparisonExpression (.text op) a b)
  | logical {op a b} (ho : op = "and" ∨ op = "or") (ha : Proper a) (hb : Proper b) :
      Proper (.logicalExpression (.text op) a b)
  | not {a} (ha : Proper a) : Proper (.logicalExpression (.text "not") a .null)
  | negation {op a} (ho : Value.isNegation op = true) (ha : Proper a) :
      Proper (.unaryExpression (.text op) a)
  | declaration {name init constant isArray} (h : init.isAbsent = false → Proper init) :
      Proper (.variableDeclaration (.text name) init (.bool constant) (.bool isArray))
  | function {name} {params : List String} {items} (h : ∀ t ∈ items, Proper t) :
      Proper (.functionDeclaration (.text name) (.list (params.map .text)) (.block (.list items)))
  | ifThen {test items} (ht : Proper test) (h : ∀ t ∈ items, Proper t) :
      Proper (.ifStatement test (.block (.list items)) .null)
  | ifElse {test items items'} (ht : Proper test) (h : ∀ t ∈ items, Proper t)
      (h' : ∀ t ∈ items', Proper t) :
      Proper (.ifStatement test (.block (.list items)) (.block (.list items')))
  | whileDo {test items} (ht : Proper test) (h : ∀ t ∈ items, Proper t) :
      Proper (.whileStatement test (.block (.list items)))
  | forTo {name start stop items} (hs : Proper start) (ht : Proper stop)
      (h : ∀ t ∈ items, Proper t) :
      Proper (.forStatement (.text name) start stop (.block (.list items)))
  | returning {value} (h : value.isAbsent = false → Proper value) :
      Proper (.returnStatement value)
  | assign {name value} (h : Proper value) :
      Proper (.assignmentExpression (.identifier (.text name)) value)
  | store {a i value} (ha : Proper a) (hi : Proper i) (h : Proper value) :
      Proper (.assignmentExpression (.arrayAccess a i) value)
  | program {items} (h : ∀ t ∈ items, Proper t) : Proper (.program (.list items))

/-- A list of proper trees. -/
def ProperItems (t : Tree) : Prop := ∃ items, t = .list items ∧ ∀ i ∈ items, i.Proper

/-- A list of texts. -/
def TextItems (t : Tree) : Prop := ∃ texts : List String, t = .list (texts.map .text)

end BoxScript.Tree
