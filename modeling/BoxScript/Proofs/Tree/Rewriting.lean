/-
  Rewriting of trees, node by node.

  * `Tree.rewrite f` applies `f` to every node of a tree, to the inner ones first.  Names, operators
    and the contents of literals are no nodes, and stay as they are;
  * `Tree.Rewritten S f`: a tree of the shape `S`, or one that is left out, and what it is rewritten
    to.  As a correspondence of trees it serves to compare a program with the rewritten one;
  * `Tree.sequenceLike_rewrite`, `Tree.bodyLike_rewrite` and `Tree.optionalLike_rewrite`: fields
    that hold a list, a block, or something that may be left out correspond so.
-/
import BoxScript.Proofs.Tree.Likeness

namespace BoxScript.Tree

mutual

/-- Applies `f` to every node of a tree, to the inner ones first. -/
def rewrite (f : Tree → Tree) : Tree → Tree
  | .null => .null
  | .bool b => .bool b
  | .int n => .int n
  | .num x => .num x
  | .text s => .text s
  | .list items => .list (rewriteAll f items)
  | .program body => f (.program (rewrite f body))
  | .block body => f (.block (rewrite f body))
  | .variableDeclaration name initializer constant isArray =>
    f (.variableDeclaration name (rewrite f initializer) constant isArray)
  | .functionDeclaration name params body => f (.functionDeclaration name params (rewrite f body))
  | .ifStatement test consequent alternate =>
    f (.ifStatement (rewrite f test) (rewrite f consequent) (rewrite f alternate))
  | .whileStatement test body => f (.whileStatement (rewrite f test) (rewrite f body))
  | .forStatement loopVar start stop body =>
    f (.forStatement loopVar (rewrite f start) (rewrite f stop) (rewrite f body))
  | .returnStatement argument => f (.returnStatement (rewrite f argument))
  | .identifier symbol => f (.identifier symbol)
  | .numberLiteral value => f (.numberLiteral value)
  | .stringLiteral value => f (.stringLiteral value)
  | .booleanLiteral value => f (.booleanLiteral value)
  | .arrayLiteral elements => f (.arrayLiteral (rewrite f elements))
  | .arrayAccess array index => f (.arrayAccess (rewrite f array) (rewrite f index))
  | .property key value => f (.property key (rewrite f value))
  | .objectExpression properties => f (.objectExpression (rewrite f properties))
  | .binaryExpression operator left right =>
    f (.binaryExpression operator (rewrite f left) (rewrite f right))
  | .comparisonExpression operator left right =>
    f (.comparisonExpression operator (rewrite f left) (rewrite f right))
  | .logicalExpression operator left right =>
    f (.logicalExpression operator (rewrite f left) (rewrite f right))
  | .unaryExpression operator argument => f (.unaryExpression operator (rewrite f argument))
  | .conditionalExpression test consequent alternate =>
    f (.conditionalExpression (rewrite f test) (rewrite f consequent) (rewrite f alternate))
  | .assignmentExpression target value =>
    f (.assignmentExpression (rewrite f target) (rewrite f value))
  | .callExpression callee arguments =>
    f (.callExpression (rewrite f callee) (rewrite f arguments))

/-- Rewrites each tree of a list. -/
def rewriteAll (f : Tree → Tree) : List Tree → List Tree
  | [] => []
  | t :: ts => rewrite f t :: rewriteAll f ts

end

variable {f : Tree → Tree} {S : Tree → Prop} {t : Tree} {items : List Tree}

theorem rewriteAll_eq_map (f : Tree → Tree) (items : List Tree) :
    rewriteAll f items = items.map (rewrite f) := by
  induction items with
  | nil => rfl
  | cons t ts ih => simp [rewriteAll, ih]

theorem rewrite_list (f : Tree → Tree) (items : List Tree) :
    rewrite f (.list items) = .list (items.map (rewrite f)) := by
  rw [rewrite, rewriteAll_eq_map]

/-- What is left out stays so, and nothing else becomes so, if no node does. -/
theorem isAbsent_rewrite (hf : ∀ t, t.isAbsent = false → (f t).isAbsent = false) (t : Tree) :
    (t.rewrite f).isAbsent = t.isAbsent := by
  cases t with
  | null | bool | int | num | text | list => rfl
  | _ => exact hf _ rfl

/-! ## Rewriting as a correspondence -/

/-- The tree `t` is left out or has the shape `S`, and `t'` is what it is rewritten to. -/
structure Rewritten (S : Tree → Prop) (f : Tree → Tree) (t t' : Tree) : Prop where
  shape : t.isAbsent = false → S t
  eq : t' = t.rewrite f

theorem Rewritten.of (h : S t) : Rewritten S f t (t.rewrite f) := ⟨fun _ => h, rfl⟩

theorem sequenceLike_map {R : Tree → Tree → Prop} (h : ∀ t ∈ items, R t (t.rewrite f)) :
    SequenceLike R (.list items) (rewrite f (.list items)) := by
  rw [rewrite_list]
  refine ⟨rfl, .some ?_⟩
  rw [List.forall₂_map_right_iff, List.forall₂_same]
  exact h

theorem sequenceLike_rewrite (h : ∀ t ∈ items, S t) :
    SequenceLike (Rewritten S f) (.list items) (rewrite f (.list items)) :=
  sequenceLike_map fun t ht => .of (h t ht)

theorem bodyLike_rewrite (hf : ∀ body, f (.block body) = .block body) (h : ∀ t ∈ items, S t) :
    BodyLike (Rewritten S f) (.block (.list items)) (rewrite f (.block (.list items))) := by
  rw [rewrite, hf]
  exact ⟨rfl, .some (sequenceLike_rewrite h)⟩

theorem optionalLike_rewrite (hf : ∀ t, t.isAbsent = false → (f t).isAbsent = false)
    (h : t.isAbsent = false → S t) : OptionalLike (Rewritten S f) t (t.rewrite f) := by
  cases habs : t.isAbsent with
  | true =>
    cases t with
    | null => exact .absent
    | _ => cases habs
  | false => exact .present habs (by rw [isAbsent_rewrite hf, habs]) (.of (h habs))

end BoxScript.Tree
