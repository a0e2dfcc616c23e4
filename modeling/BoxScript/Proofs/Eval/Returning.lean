/-
  `return` does not leave a function: it stands for its argument.

  A `return` in the middle of a body, in a loop or in a branch has no effect on what comes after it.
  So every one that has an argument may be replaced by the argument.

  * `Tree.withoutReturns` replaces them, everywhere in a tree;
  * `withoutReturns_step`: a node is evaluated as what it is replaced by;
  * `return_transparent`: **a program and the program without its returns do the same**.
-/
import BoxScript.Proofs.Eval.Rewriting
import BoxScript.Proofs.Eval.Safety

namespace BoxScript

/-- The argument in the place of a `return` that has one. -/
def returnedNode : Tree → Tree
  | .returnStatement argument =>
    if argument.isAbsent then .returnStatement argument else argument
  | t => t

/-- The tree with every `return` that has an argument replaced by the argument. -/
def Tree.withoutReturns (t : Tree) : Tree := t.rewrite returnedNode

theorem isAbsent_returnedNode (t : Tree) (h : t.isAbsent = false) :
    (returnedNode t).isAbsent = false := by
  unfold returnedNode
  split
  · split
    · rfl
    · next hpresent => simpa using hpresent
  · exact h

/-- The run of a program and that of the program without its returns. -/
abbrev Likeness.withoutReturns (cfg : Settings) : Likeness :=
  .rewriting cfg Tree.Proper returnedNode Eq

section

variable {cfg : Settings} {depth depth' : Nat}

/-- A `return` with an argument is evaluated as the argument, at one depth less. -/
theorem evaluate_return {argument : Tree} (h : argument.isAbsent = false) (r : ScopeRef) :
    evaluate cfg (depth + 1) (.returnStatement argument) r = evaluate cfg depth argument r := by
  show (if argument.isAbsent then _ else _) = _
  rw [h]
  rfl

/-- **A node is evaluated as what it is replaced by**, if its parts are.  The second evaluation gets
    to the argument of a `return` at once, where the first has gone one node deeper. -/
theorem withoutReturns_step
    (heval : ∀ {depth'}, depth ≤ depth' →
      (Likeness.withoutReturns cfg).Evaluators (evaluate cfg depth) (evaluate cfg depth'))
    (hd : depth ≤ depth') {t : Tree} (ht : t.Proper) (r : ScopeRef) :
    (Likeness.withoutReturns cfg).Follows (Likeness.withoutReturns cfg).Values
      (evaluate cfg (depth + 1) t r) (evaluate cfg (depth' + 1) t.withoutReturns r) := by
  have hblock : ∀ body, returnedNode (.block body) = .block body := fun _ => rfl
  have hpresent := isAbsent_returnedNode
  have hlike : ∀ {t t'}, Tree.Like (Tree.Rewritten Tree.Proper returnedNode) t t' →
      (Likeness.withoutReturns cfg).Follows (Likeness.withoutReturns cfg).Values
        (evaluate cfg (depth + 1) t r) (evaluate cfg (depth' + 1) t' r) :=
    fun h => Likeness.evalStep_follows (heval hd) hd h r
  cases ht with
  | number x => exact hlike (.leaf (t := .numberLiteral (.num x)) trivial)
  | string s => exact hlike (.leaf (t := .stringLiteral (.text s)) trivial)
  | boolean b => exact hlike (.leaf (t := .booleanLiteral (.bool b)) trivial)
  | identifier s => exact hlike (.leaf (t := .identifier (.text s)) trivial)
  | array h => exact hlike (.arrayLiteral (Tree.sequenceLike_rewrite h))
  | access ha hi => exact hlike (.arrayAccess (.of ha) (.of hi))
  | call hf h => exact hlike (.callExpression (.of hf) (Tree.sequenceLike_rewrite h))
  | binary _ ha hb => exact hlike (.binaryExpression _ (.of ha) (.of hb))
  | comparison _ ha hb => exact hlike (.comparisonExpression _ (.of ha) (.of hb))
  | logical _ ha hb => exact hlike (.logicalExpression _ (.of ha) fun _ => .of hb)
  | not ha => exact hlike (.logicalExpression _ (.of ha) fun h => absurd rfl h)
  | negation _ ha => exact hlike (.unaryExpression _ (.of ha))
  | declaration h =>
    exact hlike (.variableDeclaration _ _ _ (Tree.optionalLike_rewrite hpresent h))
  | function h => exact hlike (.functionDeclaration _ _ (Tree.bodyLike_rewrite hblock h))
  | ifThen ht h => exact hlike (.ifStatement (.of ht) (Tree.bodyLike_rewrite hblock h) .absent)
  | ifElse ht h h' =>
    exact hlike (.ifStatement (.of ht) (Tree.bodyLike_rewrite hblock h)
      (.present rfl rfl (Tree.bodyLike_rewrite hblock h')))
  | whileDo ht h => exact hlike (.whileStatement (.of ht) (Tree.bodyLike_rewrite hblock h))
  | forTo hs ht h =>
    exact hlike (.forStatement _ (.of hs) (.of ht) (Tree.bodyLike_rewrite hblock h))
  | @returning value h =>
    cases habs : value.isAbsent with
    | true =>
      cases value with
      | null => exact hlike (.returnStatement .absent)
      | _ => cases habs
    | false =>
      have hreturned : Tree.withoutReturns (.returnStatement value) = value.withoutReturns := by
        simp only [Tree.withoutReturns, Tree.rewrite, returnedNode,
          Tree.isAbsent_rewrite hpresent, habs, Bool.false_eq_true, if_false]
      rw [evaluate_return habs, hreturned]
      exact heval (by omega) _ _ r (.of (h habs))
  | assign h => exact hlike (.assignmentExpression (.name _) (.of h))
  | store ha hi h => exact hlike (.assignmentExpression (.element (.of ha) (.of hi)) (.of h))
  | program h => exact hlike (.program (Tree.sequenceLike_rewrite h))

end

/-- **A program and the program without its returns do the same.**  Let a program that some text is
    parsed to, and what is left of it when each `return` that has an argument is replaced by the
    argument, run in new sessions on the same input and with clocks that show the same, under any
    limits on depth that neither of them exceeds.  They end with the same value or for the same
    reason, with the same console, clock and trace, and the same scopes, arrays and objects, but for
    the returns in the bodies of functions. -/
theorem return_transparent {nesting : Nat} {source : String} {program : Tree}
    (h : parse nesting source = .ok program) (cfg : Settings) {depth depth' : Nat} {input : String}
    {clock : Clock}
    (hrun : ∀ m, runProgram cfg depth program .global (.start input clock) ≠
      .error (.error .stackOverflow) m)
    (hrun' : ∀ m, runProgram cfg depth' program.withoutReturns .global (.start input clock) ≠
      .error (.error .stackOverflow) m) :
    EndsAlike Tree.withoutReturns Eq (runProgram cfg depth program .global (.start input clock))
      (runProgram cfg depth' program.withoutReturns .global (.start input clock)) := by
  obtain ⟨items, rfl, hitems⟩ := parse_proper h
  refine runProgram_endsAlike (fun hd => ?_) (Or.inr fun _ _ he => he.symm) (fun _ => rfl) hitems
    (.program hitems) hrun hrun'
  exact Likeness.rewriting_evaluators (fun ih _ _ r hd ht => withoutReturns_step ih hd ht r) hd

/-- A function that prints after a `return`, and a call of it. -/
def returnInside : String := "function f() doIt return \"a\"; print(\"b\") end f()"

/-- The lexemes of the text. -/
def returnInsideLexemes : List Lexeme :=
  [.inLine .functionKw "function" 0 8, .inLine .identifier "f" 9 10, .inLine .beginParams "(" 10 11,
   .inLine .endParams ")" 11 12, .inLine .doItKw "doIt" 13 17, .inLine .returnKw "return" 18 24,
   .inLine .string "a" 25 28, .inLine .endKw ";" 28 29, .inLine .identifier "print" 30 35,
   .inLine .beginParams "(" 35 36, .inLine .string "b" 36 39, .inLine .endParams ")" 39 40,
   .inLine .endKw "end" 41 44, .inLine .identifier "f" 45 46, .inLine .beginParams "(" 46 47,
   .inLine .endParams ")" 47 48, ⟨.endOfInput, "", ⟨48, 1, 49⟩, none⟩]

/-- The function with `first` before the statement that prints, and the call. -/
def Tree.printingAfter (first : Tree) : Tree :=
  .program (.list [
    .functionDeclaration (.text "f") (.list []) (.block (.list [
      first,
      .callExpression (.identifier (.text "print")) (.list [.stringLiteral (.text "b")])])),
    .callExpression (.identifier (.text "f")) (.list [])])

/-- The function prints with the `return` as without it. -/
theorem return_transparent_inside :
    let run := fun first => runProgram { passes := 1 } 9 (.printingAfter first) .global
      (.start "" (.counting 0))
    parse 9 returnInside = .ok (.printingAfter (.returnStatement (.stringLiteral (.text "a")))) ∧
      ∃ m m', run (.returnStatement (.stringLiteral (.text "a"))) = .ok .null m ∧
        run (.stringLiteral (.text "a")) = .ok .null m' ∧ m.console.output = "b\n" ∧
        m.Rewritten Tree.withoutReturns m' := by
  intro run
  have hscan : scan returnInside = .ok returnInsideLexemes := by decide +kernel
  have hparse : parse 9 returnInside =
      .ok (.printingAfter (.returnStatement (.stringLiteral (.text "a")))) := by
    rw [parse, hscan]
    rfl
  obtain ⟨m, hrun, hout⟩ : ∃ m, run (.returnStatement (.stringLiteral (.text "a"))) = .ok .null m ∧
      m.console.output = "b\n" := ⟨_, by rfl, by rfl⟩
  obtain ⟨m', hrun'⟩ : ∃ m', run (.stringLiteral (.text "a")) = .ok .null m' := ⟨_, by rfl⟩
  have halike : EndsAlike _ _ (run (.returnStatement (.stringLiteral (.text "a"))))
      (run (.stringLiteral (.text "a"))) :=
    return_transparent hparse _ (fun _ hover => by cases hrun.symm.trans hover)
      fun _ hover => by cases hrun'.symm.trans hover
  rw [hrun, hrun'] at halike
  cases halike with
  | ok _ h => exact ⟨hparse, m, m', hrun, hrun', hout, h⟩

end BoxScript
