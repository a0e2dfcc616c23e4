/-
  The names that a tree declares.

  * `Tree.declared` lists the names of variables, functions, parameters and loop variables that are
    declared anywhere in a tree, so far as they are texts;
  * `Tree.IsWord W`: the tree is a text of `W`;
  * `Tree.ProperIn W`: a tree of proper shape that declares names of `W` only.  `Tree.ItemsIn` and
    `Tree.BodyIn` are the shapes of the fields that hold a list and a block of such trees.
-/
import BoxScript.Proofs.Tree.Proper

namespace BoxScript.Tree

/-- The name in a field for one, if it is a text. -/
def nameText : Tree → List String
  | .text s => [s]
  | _ => []

/-- The names in a list of parameters, so far as they are texts. -/
def paramTexts : Tree → List String
  | .list items => items.flatMap nameText
  | _ => []

mutual

/-- The names that are declared anywhere in a tree. -/
def declared : Tree → List String
  | .variableDeclaration name initializer _ _ => name.nameText ++ declared initializer
  | .functionDeclaration name params body =>
    name.nameText ++ (params.paramTexts ++ declared body)
  | .forStatement loopVar start stop body =>
    loopVar.nameText ++ (declared start ++ (declared stop ++ declared body))
  | .list items => declaredIn items
  | .program part | .block part | .returnStatement part | .arrayLiteral part
  | .objectExpression part | .property _ part | .unaryExpression _ part => declared part
  | .whileStatement a b | .arrayAccess a b | .binaryExpression _ a b | .comparisonExpression _ a b
  | .logicalExpression _ a b | .assignmentExpression a b | .callExpression a b =>
    declared a ++ declared b
  | .ifStatement a b c | .conditionalExpression a b c =>
    declared a ++ (declared b ++ declared c)
  | .null | .bool _ | .int _ | .num _ | .text _ | .identifier _ | .numberLiteral _
  | .stringLiteral _ | .booleanLiteral _ => []

/-- The names that are declared anywhere in the trees of a list. -/
def declaredIn : List Tree → List String
  | [] => []
  | t :: ts => declared t ++ declaredIn ts

end

theorem mem_declaredIn {items : List Tree} {n : String} :
    n ∈ declaredIn items ↔ ∃ t ∈ items, n ∈ t.declared := by
  induction items with
  | nil => simp [declaredIn]
  | cons t ts ih => simp [declaredIn, ih]

/-- The names in a list of texts are the texts. -/
theorem forall_mem_paramTexts {W : String → Prop} {texts : List String} :
    (∀ n ∈ (Tree.list (texts.map .text)).paramTexts, W n) ↔ ∀ n ∈ texts, W n := by
  have hsame : (Tree.list (texts.map .text)).paramTexts = texts := by
    rw [paramTexts, List.flatMap_map]
    exact List.flatMap_singleton' texts
  rw [hsame]

/-- The tree is a text of `W`. -/
def IsWord (W : String → Prop) (t : Tree) : Prop := ∃ w, t = .text w ∧ W w

/-- The tree has the shape that evaluation expects, and declares only names of `W`. -/
def ProperIn (W : String → Prop) (t : Tree) : Prop := t.Proper ∧ ∀ n ∈ t.declared, W n

/-- A list of such trees. -/
def ItemsIn (W : String → Prop) (t : Tree) : Prop :=
  ∃ items, t = .list items ∧ ∀ i ∈ items, i.ProperIn W

/-- A block of such trees. -/
def BodyIn (W : String → Prop) (t : Tree) : Prop :=
  ∃ items, t = .block (.list items) ∧ ∀ i ∈ items, i.ProperIn W

theorem properIn_items {W : String → Prop} {items : List Tree} (h : ∀ t ∈ items, t.Proper)
    (hn : ∀ n ∈ declaredIn items, W n) : ∀ t ∈ items, t.ProperIn W :=
  fun t ht => ⟨h t ht, fun n hmem => hn n (mem_declaredIn.2 ⟨t, ht, hmem⟩)⟩

end BoxScript.Tree
