/-
  Synonyms of operators, and the two kinds of nodes for comparisons.

  An operator has several spellings, and a comparison can stand in a node of its own or in one for
  calculations.  Neither matters for what a program does, but for the wording of an error, which
  quotes the spelling.

  * `symbolOf` gives the symbol of the synonyms of an operator;
  * `Tree.canonical` puts the symbol in the place of each spelling and turns each comparison into a
    node of its own, everywhere in a tree;
  * `canonical_step`: a node is evaluated as its canonical form;
  * `spelling_irrelevant`: **a program and its canonical form do the same**, up to the wording of
    errors.
-/
import BoxScript.Proofs.Eval.Rewriting
import BoxScript.Proofs.Token.Spelling
import BoxScript.Proofs.Tree.Typed

namespace BoxScript

/-! ## Symbols -/

/-- The other spellings of operators, each with the symbol that it is a synonym of. -/
def synonyms : List (String × String) :=
  [("add", "+"), ("subtract", "-"), ("multiply", "*"), ("divide", "/"),
   ("equals", "=="), ("is", "=="), ("!", "!="), ("notEqual", "!="),
   ("lessThan", "<"), ("lessThanOrEquals", "<="), ("lessThanOrEqual", "<="),
   ("greaterThan", ">"), ("greaterThanOrEquals", ">="), ("greaterThanOrEqual", ">=")]

/-- The symbol that the text is a synonym of; any other text is left alone. -/
def symbolOf (text : String) : String := (synonyms.lookup text).getD text

/-- The symbols that compare. -/
def comparisonSymbols : List String := ["==", "!=", "<", "<=", ">", ">="]

/-- What is the same for all synonyms is the same for a text and its symbol. -/
theorem apply_symbolOf {α : Type} {g : String → α} (h : ∀ p ∈ synonyms, g p.2 = g p.1)
    (text : String) : g (symbolOf text) = g text := by
  unfold symbolOf
  cases hlookup : synonyms.lookup text with
  | none => rfl
  | some symbol => exact h _ (Kind.mem_of_lookup hlookup)

theorem comparison_symbolOf (text : String) :
    Comparison.ofText? (symbolOf text) = Comparison.ofText? text :=
  apply_symbolOf (by decide) text

theorem arithmetic_symbolOf (text : String) :
    Arithmetic.ofText? (symbolOf text) = Arithmetic.ofText? text :=
  apply_symbolOf (by decide) text

theorem isNegation_symbolOf (text : String) :
    Value.isNegation (symbolOf text) = Value.isNegation text :=
  apply_symbolOf (by decide) text

/-- The symbol of a text compares if and only if the text is a spelling of a comparison. -/
theorem symbolOf_mem_iff {text : String} :
    symbolOf text ∈ comparisonSymbols ↔ (Comparison.ofText? text).isSome = true := by
  constructor
  · intro h
    have hsymbols : ∀ symbol ∈ comparisonSymbols, (Comparison.ofText? symbol).isSome = true := by
      decide
    rw [← comparison_symbolOf]
    exact hsymbols _ h
  · intro h
    have hspellings : ∀ p ∈ Comparison.spellings, symbolOf p.1 ∈ comparisonSymbols := by decide
    obtain ⟨op, hop⟩ := Option.isSome_iff_exists.1 h
    exact hspellings _ (Kind.mem_of_lookup hop)

/-! ## Canonical trees -/

/-- The canonical form of a node whose parts are canonical. -/
def canonicalNode : Tree → Tree
  | .binaryExpression (.text op) left right =>
    if symbolOf op ∈ comparisonSymbols then .comparisonExpression (.text (symbolOf op)) left right
    else .binaryExpression (.text (symbolOf op)) left right
  | .comparisonExpression (.text op) left right =>
    .comparisonExpression (.text (symbolOf op)) left right
  | .unaryExpression (.text op) argument => .unaryExpression (.text (symbolOf op)) argument
  | t => t

/-- The tree with symbols for all operators, and all comparisons in nodes of their own. -/
def Tree.canonical (t : Tree) : Tree := t.rewrite canonicalNode

theorem isAbsent_canonicalNode (t : Tree) (h : t.isAbsent = false) :
    (canonicalNode t).isAbsent = false := by
  unfold canonicalNode
  split
  · split <;> rfl
  · rfl
  · rfl
  · exact h

/-! ## Operators -/

/-- The errors have the same name. -/
def EvalError.SameName (e e' : EvalError) : Prop := e'.name = e.name

namespace Value

theorem compare_symbolOf (op : String) (a b : Value) :
    Matches EvalError.SameName Eq (compare op a b) (compare (symbolOf op) a b) := by
  unfold compare
  rw [comparison_symbolOf]
  cases Comparison.ofText? op with
  | none => exact .error rfl
  | some c =>
    simp only
    split
    · exact .ok rfl
    · exact .error rfl

theorem binary_of_isSome {op : String} (h : (Comparison.ofText? op).isSome = true) (a b : Value) :
    binary op a b = compare op a b := by
  unfold binary
  rw [if_pos h]

theorem binary_symbolOf (op : String) (a b : Value) :
    Matches EvalError.SameName Eq (binary op a b) (binary (symbolOf op) a b) := by
  unfold binary
  rw [comparison_symbolOf, arithmetic_symbolOf]
  split
  · exact compare_symbolOf op a b
  · cases Arithmetic.ofText? op with
    | none => exact .error rfl
    | some c =>
      simp only
      split
      · next x y => cases (c.apply x y).map number with
        | ok v => exact .ok rfl
        | error e => exact .error rfl
      · exact .error rfl

theorem unary_symbolOf (op : String) (a : Value) :
    Matches EvalError.SameName Eq (unary op a) (unary (symbolOf op) a) := by
  unfold unary
  rw [isNegation_symbolOf]
  split
  · split
    · exact .ok rfl
    · exact .error rfl
  · exact .error rfl

end Value

/-! ## Evaluation -/

/-- The run of a program and that of its canonical form. -/
abbrev Likeness.canonical (cfg : Settings) : Likeness :=
  .rewriting cfg Tree.Typed canonicalNode EvalError.SameName

section

variable {cfg : Settings} {depth depth' : Nat} {eval eval' : Evaluator}

/-- Operators that differ in the wording of errors only. -/
theorem follows_synonym {x y : Except EvalError Value} (h : Matches EvalError.SameName Eq x y)
    (hplain : ∀ v, x = .ok v → v.IsPlain) :
    (Likeness.canonical cfg).Follows (Likeness.canonical cfg).Values (Run.lift x)
      (Run.lift y) := by
  refine Likeness.follows_lift ?_
  cases h with
  | ok h => exact .ok (h ▸ (hplain _ rfl).like)
  | error h => exact .error (.error h)

/-- Two operands, and then an operator. -/
theorem canonical_operands {a b : Tree} (ha : a.Typed) (hb : b.Typed)
    (heval : (Likeness.canonical cfg).Evaluators eval eval') (r : ScopeRef)
    {op op' : Value → Value → Except EvalError Value}
    (h : ∀ v w v' w', (Likeness.canonical cfg).Values v v' → (Likeness.canonical cfg).Values w w' →
      (Likeness.canonical cfg).Follows (Likeness.canonical cfg).Values (Run.lift (op v w))
        (Run.lift (op' v' w'))) :
    (Likeness.canonical cfg).Follows (Likeness.canonical cfg).Values
      (do let v ← eval a r; let w ← eval b r; Run.lift (op v w))
      (do let v ← eval' a.canonical r; let w ← eval' b.canonical r; Run.lift (op' v w)) := by
  refine (heval _ _ r (.of ha)).bind fun v v' hv => ?_
  exact (heval _ _ r (.of hb)).bind fun w w' hw => h v w v' w' hv hw

/-- What is no target stays none, but the error may name another class of nodes. -/
theorem canonical_assignment {target value : Tree} (ht : target.Typed) (hv : value.Typed)
    (heval : (Likeness.canonical cfg).Evaluators eval eval') (hd : depth ≤ depth') (r : ScopeRef) :
    (Likeness.canonical cfg).Follows (Likeness.canonical cfg).Values
      (Eval.assignment depth eval target value r)
      (Eval.assignment depth' eval' target.canonical value.canonical r) := by
  have hother : ∀ {t t' : Tree}, (∀ a i, t ≠ .arrayAccess a i) → (∀ s, t ≠ .identifier s) →
      (∀ a i, t' ≠ .arrayAccess a i) → (∀ s, t' ≠ .identifier s) →
      (Likeness.canonical cfg).Follows (Likeness.canonical cfg).Values
        (Eval.assignment depth eval t value r)
        (Eval.assignment depth' eval' t' value.canonical r) := by
    intro t t' ha hs ha' hs'
    rw [Likeness.assignment_of_other ha hs, Likeness.assignment_of_other ha' hs']
    exact follows_throw (.error rfl)
  cases ht with
  | access ha hi =>
    exact Likeness.assignment_follows heval hd (.element (.of ha) (.of hi)) (.of hv) r
  | identifier s => exact Likeness.assignment_follows heval hd (.name (.text s)) (.of hv) r
  | @binary op a b =>
    refine hother (by simp) (by simp) ?_ ?_
    · simp only [Tree.canonical, Tree.rewrite, canonicalNode]
      split <;> simp
    · simp only [Tree.canonical, Tree.rewrite, canonicalNode]
      split <;> simp
  | _ =>
    exact hother (by simp) (by simp) (by simp [Tree.canonical, Tree.rewrite, canonicalNode])
      (by simp [Tree.canonical, Tree.rewrite, canonicalNode])

/-- **A node is evaluated as its canonical form**, if its parts are. -/
theorem canonical_step {t : Tree} (ht : t.Typed)
    (heval : (Likeness.canonical cfg).Evaluators eval eval') (hd : depth ≤ depth') (r : ScopeRef) :
    (Likeness.canonical cfg).Follows (Likeness.canonical cfg).Values
      (Eval.evalStep cfg depth eval t r) (Eval.evalStep cfg depth' eval' t.canonical r) := by
  have hblock : ∀ body, canonicalNode (.block body) = .block body := fun _ => rfl
  have hpresent := isAbsent_canonicalNode
  have hlike : ∀ {t t'}, Tree.Like (Tree.Rewritten Tree.Typed canonicalNode) t t' →
      (Likeness.canonical cfg).Follows (Likeness.canonical cfg).Values
        (Eval.evalStep cfg depth eval t r) (Eval.evalStep cfg depth' eval' t' r) :=
    fun h => Likeness.evalStep_follows heval hd h r
  cases ht with
  | number x => exact hlike (.leaf (t := .numberLiteral (.num x)) trivial)
  | string s => exact hlike (.leaf (t := .stringLiteral (.text s)) trivial)
  | boolean b => exact hlike (.leaf (t := .booleanLiteral (.bool b)) trivial)
  | identifier s => exact hlike (.leaf (t := .identifier (.text s)) trivial)
  | array h => exact hlike (.arrayLiteral (Tree.sequenceLike_rewrite h))
  | access ha hi => exact hlike (.arrayAccess (.of ha) (.of hi))
  | property h => exact Likeness.follows_fail _
  | @object props hp h =>
    refine hlike (.objectExpression (Tree.sequenceLike_map fun p hmem => ?_))
    obtain ⟨key, value, rfl⟩ := hp p hmem
    cases h _ hmem with
    | property h => exact .property _ (Tree.optionalLike_rewrite hpresent h)
  | @binary op a b ha hb =>
    simp only [Tree.canonical, Tree.rewrite, canonicalNode]
    split
    · next hmem =>
      refine canonical_operands ha hb heval r fun v w v' w' hv hw => ?_
      rw [hv.compare hw, Name.text_ofText, Value.binary_of_isSome (symbolOf_mem_iff.1 hmem)]
      exact follows_synonym (Value.compare_symbolOf op v w) fun _ => Contract.compare_isPlain
    · refine canonical_operands ha hb heval r fun v w v' w' hv hw => ?_
      rw [hv.binary hw]
      exact follows_synonym (Value.binary_symbolOf op v w) fun _ => Contract.binary_isPlain
  | @comparison op a b ha hb =>
    refine canonical_operands ha hb heval r fun v w v' w' hv hw => ?_
    rw [hv.compare hw]
    exact follows_synonym (Value.compare_symbolOf op v w) fun _ => Contract.compare_isPlain
  | logical ha hb => exact hlike (.logicalExpression _ (.of ha) fun _ => ⟨hb, rfl⟩)
  | @unary op a ha =>
    refine (heval _ _ r (.of ha)).bind fun v v' hv => ?_
    simp only [Run.nameOf_text, pure_bind, Name.text_ofText]
    rw [hv.unary]
    exact follows_synonym (Value.unary_symbolOf op v) fun _ => Contract.unary_isPlain
  | conditional ht ha hb => exact hlike (.conditionalExpression (.of ht) (.of ha) (.of hb))
  | assign ht hv => exact canonical_assignment ht hv heval hd r
  | call hf h => exact hlike (.callExpression (.of hf) (Tree.sequenceLike_rewrite h))
  | declaration h => exact hlike (.variableDeclaration _ _ _ (Tree.optionalLike_rewrite hpresent h))
  | function h => exact hlike (.functionDeclaration _ _ (Tree.bodyLike_rewrite hblock h))
  | ifThen ht h => exact hlike (.ifStatement (.of ht) (Tree.bodyLike_rewrite hblock h) .absent)
  | ifElse ht h h' =>
    exact hlike (.ifStatement (.of ht) (Tree.bodyLike_rewrite hblock h)
      (.present rfl rfl (Tree.bodyLike_rewrite hblock h')))
  | whileDo ht h => exact hlike (.whileStatement (.of ht) (Tree.bodyLike_rewrite hblock h))
  | forTo hs ht h =>
    exact hlike (.forStatement _ (.of hs) (.of ht) (Tree.bodyLike_rewrite hblock h))
  | returning h => exact hlike (.returnStatement (Tree.optionalLike_rewrite hpresent h))
  | block h => exact hlike (.block (Tree.sequenceLike_rewrite h))
  | program h => exact hlike (.program (Tree.sequenceLike_rewrite h))

end

/-- **A program and its canonical form do the same**, up to the wording of errors.  Let a program of
    typed statements and its canonical form run in new sessions on the same input and with clocks
    that show the same, without tracing and under any limits on depth that neither of them exceeds.
    They end with the same value, console and clock, the same scopes, arrays and objects, up to the
    canonical form of the bodies of functions; or they fail with errors of the same name, with the
    same console, clock and store then. -/
theorem spelling_irrelevant {cfg : Settings} (hlevel : cfg.traceLevel = 0) {items : List Tree}
    (h : ∀ t ∈ items, t.Typed) {depth depth' : Nat} {input : String} {clock : Clock}
    (hrun : ∀ m, runProgram cfg depth (.program (.list items)) .global (.start input clock) ≠
      .error (.error .stackOverflow) m)
    (hrun' : ∀ m, runProgram cfg depth' (Tree.canonical (.program (.list items))) .global
      (.start input clock) ≠ .error (.error .stackOverflow) m) :
    EndsAlike Tree.canonical EvalError.SameName
      (runProgram cfg depth (.program (.list items)) .global (.start input clock))
      (runProgram cfg depth' (Tree.canonical (.program (.list items))) .global
        (.start input clock)) := by
  refine runProgram_endsAlike (fun hd => ?_) (Or.inl hlevel) (fun _ => rfl) h (.program h) hrun
    hrun'
  exact Likeness.rewriting_evaluators
    (fun ih _ _ r hd ht => canonical_step ht (ih hd) hd r) hd

/-- A function that prints and then evaluates `body`, and a call of it. -/
def Tree.printing (body argument : Tree) : List Tree :=
  [.functionDeclaration (.text "f") (.list [.text "x"]) (.block (.list
     [.callExpression (.identifier (.text "print")) (.list [.stringLiteral (.text "called")]),
      body])),
   .callExpression (.identifier (.text "f")) (.list [argument])]

/-- `(x add 1) lessThan 2`, as a calculation. -/
def Tree.wordyTest : Tree :=
  .binaryExpression (.text "lessThan") (.binaryExpression (.text "add") (.identifier (.text "x"))
    (.numberLiteral (.num 1))) (.numberLiteral (.num 2))

/-- `(x + 1) < 2`, as a comparison. -/
def Tree.plainTest : Tree :=
  .comparisonExpression (.text "<") (.binaryExpression (.text "+") (.identifier (.text "x"))
    (.numberLiteral (.num 1))) (.numberLiteral (.num 2))

theorem Tree.typed_printing {argument : Tree} (h : argument.Typed) :
    ∀ t ∈ printing wordyTest argument, t.Typed := by
  have htest : wordyTest.Typed := .binary (.binary (.identifier "x") (.number 1)) (.number 2)
  have hprint : Tree.Typed (.callExpression (.identifier (.text "print"))
      (.list [.stringLiteral (.text "called")])) :=
    .call (.identifier "print") (by simpa using .string "called")
  simp only [printing, List.forall_mem_cons]
  have hfunction : Tree.Typed (.functionDeclaration (.text "f") (.list (["x"].map .text)) _) :=
    .function (List.forall_mem_cons.2 ⟨hprint, List.forall_mem_singleton.2 htest⟩)
  exact ⟨hfunction, .call (.identifier "f") (by simpa using h), by simp⟩

/-- The call with a number, and with a text, which cannot be added to. -/
theorem spelling_irrelevant_printing :
    let run (test argument : Tree) := runProgram { passes := 1 } 9
      (.program (.list (Tree.printing test argument))) .global (.start "" (.counting 0))
    (∃ m m', run .wordyTest (.numberLiteral (.num 1)) = .ok (.boolean (1 + 1 < (2 : Float))) m ∧
      run .plainTest (.numberLiteral (.num 1)) = .ok (.boolean (1 + 1 < (2 : Float))) m' ∧
      m.console.output = "called\n" ∧ m.Rewritten Tree.canonical m') ∧
    ∃ m m', run .wordyTest (.stringLiteral (.text "a")) =
        .error (.error (.arithmeticTypes "add" "String" "Number")) m ∧
      run .plainTest (.stringLiteral (.text "a")) =
        .error (.error (.arithmeticTypes "+" "String" "Number")) m' ∧
      m.console.output = "called\n" ∧ m.Rewritten Tree.canonical m' := by
  intro run
  have halike : ∀ argument : Tree, argument.Typed →
      (∀ m, run .wordyTest argument ≠ .error (.error .stackOverflow) m) →
      (∀ m, run .plainTest argument ≠ .error (.error .stackOverflow) m) →
      Tree.canonical (.program (.list (Tree.printing .wordyTest argument))) =
        .program (.list (Tree.printing .plainTest argument)) →
      EndsAlike Tree.canonical EvalError.SameName (run .wordyTest argument)
        (run .plainTest argument) := by
    intro argument h hrun hrun' hcanonical
    have halike : EndsAlike _ _ (run .wordyTest argument) _ :=
      spelling_irrelevant rfl (Tree.typed_printing h) hrun (by rw [hcanonical]; exact hrun')
    rw [hcanonical] at halike
    exact halike
  refine ⟨?_, ?_⟩
  · obtain ⟨m, hrun, hout⟩ : ∃ m, run .wordyTest (.numberLiteral (.num 1)) =
        .ok (.boolean (1 + 1 < (2 : Float))) m ∧ m.console.output = "called\n" :=
      ⟨_, by rfl, by rfl⟩
    obtain ⟨m', hrun'⟩ : ∃ m', run .plainTest (.numberLiteral (.num 1)) =
        .ok (.boolean (1 + 1 < (2 : Float))) m' := ⟨_, by rfl⟩
    have h := halike (.numberLiteral (.num 1)) (.number 1) (by simp [hrun]) (by simp [hrun'])
      (by rfl)
    rw [hrun, hrun'] at h
    cases h with
    | ok _ h => exact ⟨m, m', hrun, hrun', hout, h⟩
  · obtain ⟨m, hrun, hout⟩ : ∃ m, run .wordyTest (.stringLiteral (.text "a")) =
        .error (.error (.arithmeticTypes "add" "String" "Number")) m ∧
          m.console.output = "called\n" := ⟨_, by rfl, by rfl⟩
    obtain ⟨m', hrun'⟩ : ∃ m', run .plainTest (.stringLiteral (.text "a")) =
        .error (.error (.arithmeticTypes "+" "String" "Number")) m' := ⟨_, by rfl⟩
    have h := halike (.stringLiteral (.text "a")) (.string "a") (by simp [hrun]) (by simp [hrun'])
      (by rfl)
    rw [hrun, hrun'] at h
    exact ⟨m, m', hrun, hrun', hout, h.of_error⟩

end BoxScript
