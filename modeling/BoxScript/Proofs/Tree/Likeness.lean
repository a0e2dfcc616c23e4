/-
  Trees that are alike: nodes of one kind with trees inside them that correspond.

  `T` tells which trees correspond.  What a node does not evaluate, such as a name, an operator or
  the content of a literal, is the same in both.

  * `Tree.SequenceLike R` and `Tree.BodyLike R`: fields that hold a list, or a block, of trees that
    correspond; a field that holds something else must be of one class in both;
  * `Tree.OptionalLike R`: fields that are left out in both, or correspond;
  * `Tree.Like T`: the nodes are alike;
  * `Tree.Like.refl`: a tree is like itself.
-/
import Mathlib.Data.List.Forall2
import BoxScript.Tree.Shape

namespace BoxScript.Tree

/-! ## Fields -/

theorem optionRel_cases {α β : Type} {R : α → β → Prop} {o : Option α} {o' : Option β}
    (h : Option.Rel R o o') :
    o = none ∧ o' = none ∨ ∃ a b, o = some a ∧ o' = some b ∧ R a b := by
  cases h with
  | none => exact Or.inl ⟨rfl, rfl⟩
  | some h => exact Or.inr ⟨_, _, rfl, rfl, h⟩

/-- Both fields hold sequences, with elements that correspond, or neither does. -/
structure SequenceLike (R : Tree → Tree → Prop) (t t' : Tree) : Prop where
  typeName : t'.typeName = t.typeName
  items : Option.Rel (List.Forall₂ R) t.items? t'.items?

/-- Both fields hold statements, which correspond, or neither does. -/
structure BodyLike (R : Tree → Tree → Prop) (t t' : Tree) : Prop where
  typeName : t'.typeName = t.typeName
  body : Option.Rel (SequenceLike R) t.body? t'.body?

/-- Both fields are left out, or they correspond. -/
inductive OptionalLike (R : Tree → Tree → Prop) : Tree → Tree → Prop
  | absent : OptionalLike R .null .null
  | present {t t' : Tree} (ht : t.isAbsent = false) (ht' : t'.isAbsent = false) (h : R t t') :
      OptionalLike R t t'

/-- Targets of assignments: the same name, elements that correspond, or no target in both. -/
inductive TargetLike (T : Tree → Tree → Prop) : Tree → Tree → Prop
  | element {array array' index index' : Tree} (ha : T array array') (hi : T index index') :
      TargetLike T (.arrayAccess array index) (.arrayAccess array' index')
  | name (symbol : Tree) : TargetLike T (.identifier symbol) (.identifier symbol)
  | other {t t' : Tree} (ht : ∀ a i, t ≠ .arrayAccess a i) (hs : ∀ s, t ≠ .identifier s)
      (ht' : ∀ a i, t' ≠ .arrayAccess a i) (hs' : ∀ s, t' ≠ .identifier s)
      (h : t'.typeName = t.typeName) : TargetLike T t t'

/-- Properties of the same key, with values that correspond, or no property in both. -/
inductive PropertyLike (T : Tree → Tree → Prop) : Tree → Tree → Prop
  | property (key : Tree) {value value' : Tree} (h : OptionalLike T value value') :
      PropertyLike T (.property key value) (.property key value')
  | other {t t' : Tree} (ht : ∀ key value, t ≠ .property key value)
      (ht' : ∀ key value, t' ≠ .property key value) (h : t'.typeName = t.typeName)
      (hv : Option.Rel (OptionalLike T) t.value? t'.value?) : PropertyLike T t t'

/-! ## Nodes -/

/-- The tree has no trees inside it that evaluation comes to. -/
def IsLeaf : Tree → Prop
  | .null | .bool _ | .int _ | .num _ | .text _ | .list _ | .property _ _ => True
  | .identifier _ | .numberLiteral _ | .stringLiteral _ | .booleanLiteral _ => True
  | _ => False

/-- Nodes of one kind, with trees inside them that correspond. -/
inductive Like (T : Tree → Tree → Prop) : Tree → Tree → Prop
  | leaf {t : Tree} (h : t.IsLeaf) : Like T t t
  | program {body body' : Tree} (h : SequenceLike T body body') :
      Like T (.program body) (.program body')
  | block {body body' : Tree} (h : SequenceLike T body body') : Like T (.block body) (.block body')
  | variableDeclaration (name constant isArray : Tree) {initializer initializer' : Tree}
      (h : OptionalLike T initializer initializer') :
      Like T (.variableDeclaration name initializer constant isArray)
        (.variableDeclaration name initializer' constant isArray)
  | functionDeclaration (name params : Tree) {body body' : Tree} (h : BodyLike T body body') :
      Like T (.functionDeclaration name params body) (.functionDeclaration name params body')
  | ifStatement {test test' consequent consequent' alternate alternate' : Tree} (ht : T test test')
      (hc : BodyLike T consequent consequent')
      (ha : OptionalLike (BodyLike T) alternate alternate') :
      Like T (.ifStatement test consequent alternate) (.ifStatement test' consequent' alternate')
  | whileStatement {test test' body body' : Tree} (ht : T test test') (hb : BodyLike T body body') :
      Like T (.whileStatement test body) (.whileStatement test' body')
  | forStatement (loopVar : Tree) {start start' stop stop' body body' : Tree}
      (hstart : T start start') (hstop : T stop stop') (hb : BodyLike T body body') :
      Like T (.forStatement loopVar start stop body) (.forStatement loopVar start' stop' body')
  | returnStatement {argument argument' : Tree} (h : OptionalLike T argument argument') :
      Like T (.returnStatement argument) (.returnStatement argument')
  | arrayLiteral {elements elements' : Tree} (h : SequenceLike T elements elements') :
      Like T (.arrayLiteral elements) (.arrayLiteral elements')
  | arrayAccess {array array' index index' : Tree} (ha : T array array') (hi : T index index') :
      Like T (.arrayAccess array index) (.arrayAccess array' index')
  | objectExpression {properties properties' : Tree}
      (h : SequenceLike (PropertyLike T) properties properties') :
      Like T (.objectExpression properties) (.objectExpression properties')
  | binaryExpression (operator : Tree) {left left' right right' : Tree} (hl : T left left')
      (hr : T right right') :
      Like T (.binaryExpression operator left right) (.binaryExpression operator left' right')
  | comparisonExpression (operator : Tree) {left left' right right' : Tree} (hl : T left left')
      (hr : T right right') :
      Like T (.comparisonExpression operator left right)
        (.comparisonExpression operator left' right')
  | logicalExpression (operator : Tree) {left left' right right' : Tree} (hl : T left left')
      (hr : operator ≠ .text "not" → T right right') :
      Like T (.logicalExpression operator left right) (.logicalExpression operator left' right')
  | unaryExpression (operator : Tree) {argument argument' : Tree} (h : T argument argument') :
      Like T (.unaryExpression operator argument) (.unaryExpression operator argument')
  | conditionalExpression {test test' consequent consequent' alternate alternate' : Tree}
      (ht : T test test') (hc : T consequent consequent') (ha : T alternate alternate') :
      Like T (.conditionalExpression test consequent alternate)
        (.conditionalExpression test' consequent' alternate')
  | assignmentExpression {target target' value value' : Tree} (ht : TargetLike T target target')
      (hv : T value value') :
      Like T (.assignmentExpression target value) (.assignmentExpression target' value')
  | callExpression {callee callee' arguments arguments' : Tree} (hf : T callee callee')
      (h : SequenceLike T arguments arguments') :
      Like T (.callExpression callee arguments) (.callExpression callee' arguments')

/-! ## A tree is like itself -/

section

variable {R : Tree → Tree → Prop}

theorem optionRel_refl {α : Type} {R : α → α → Prop} (hR : ∀ a, R a a) (o : Option α) :
    Option.Rel R o o := by
  cases o with
  | none => exact .none
  | some a => exact .some (hR a)

theorem SequenceLike.refl (hR : ∀ t, R t t) (t : Tree) : SequenceLike R t t :=
  ⟨rfl, optionRel_refl (fun _ => List.forall₂_same.2 fun t _ => hR t) _⟩

theorem BodyLike.refl (hR : ∀ t, R t t) (t : Tree) : BodyLike R t t :=
  ⟨rfl, optionRel_refl (SequenceLike.refl hR) _⟩

theorem OptionalLike.refl (hR : ∀ t, R t t) (t : Tree) : OptionalLike R t t := by
  cases t with
  | null => exact .absent
  | _ => exact .present rfl rfl (hR _)

theorem TargetLike.refl (hR : ∀ t, R t t) (t : Tree) : TargetLike R t t := by
  cases t with
  | arrayAccess a i => exact .element (hR a) (hR i)
  | identifier s => exact .name s
  | _ => exact .other (by simp) (by simp) (by simp) (by simp) rfl

theorem PropertyLike.refl (hR : ∀ t, R t t) (t : Tree) : PropertyLike R t t := by
  by_cases h : ∃ key value, t = .property key value
  · obtain ⟨key, value, rfl⟩ := h
    exact .property key (.refl hR value)
  · have hne : ∀ key value, t ≠ .property key value := fun key value ht => h ⟨key, value, ht⟩
    exact .other hne hne rfl (optionRel_refl (OptionalLike.refl hR) _)

theorem Like.refl (hR : ∀ t, R t t) (t : Tree) : Like R t t := by
  cases t with
  | program body => exact .program (.refl hR body)
  | block body => exact .block (.refl hR body)
  | variableDeclaration n i c a => exact .variableDeclaration n c a (.refl hR i)
  | functionDeclaration n ps body => exact .functionDeclaration n ps (.refl hR body)
  | ifStatement t c a => exact .ifStatement (hR t) (.refl hR c) (.refl (BodyLike.refl hR) a)
  | whileStatement t body => exact .whileStatement (hR t) (.refl hR body)
  | forStatement v a b body => exact .forStatement v (hR a) (hR b) (.refl hR body)
  | returnStatement a => exact .returnStatement (.refl hR a)
  | arrayLiteral es => exact .arrayLiteral (.refl hR es)
  | arrayAccess a i => exact .arrayAccess (hR a) (hR i)
  | objectExpression ps => exact .objectExpression (.refl (PropertyLike.refl hR) ps)
  | binaryExpression o l r => exact .binaryExpression o (hR l) (hR r)
  | comparisonExpression o l r => exact .comparisonExpression o (hR l) (hR r)
  | logicalExpression o l r => exact .logicalExpression o (hR l) fun _ => hR r
  | unaryExpression o a => exact .unaryExpression o (hR a)
  | conditionalExpression t c a => exact .conditionalExpression (hR t) (hR c) (hR a)
  | assignmentExpression t v => exact .assignmentExpression (.refl hR t) (hR v)
  | callExpression f as => exact .callExpression (hR f) (.refl hR as)
  | _ => exact .leaf trivial

end

end BoxScript.Tree
