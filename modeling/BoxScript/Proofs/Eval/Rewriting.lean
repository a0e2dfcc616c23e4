/-
  The run of a program, and that of the program rewritten.

  A way to rewrite trees is harmless if the evaluation of a rewritten tree does as that of the tree
  itself.  Then whole runs of the two programs end alike, whatever the limits on depth are under
  which they run.

  * `Likeness.rewriting`: two runs with the same settings, the second one of the rewritten program;
    `Likeness.rewriting_evaluators` goes from one node to all;
  * `Machine.Rewritten` and `EndsAlike`: the machines at the end, and the ends of the two runs, are
    the same but for the statements of functions;
  * `runProgram_endsAlike`: **runs of a program and of the rewritten one end alike**, if evaluation
    does alike.
-/
import BoxScript.Proofs.Eval.Limits
import BoxScript.Proofs.Store.Bodies
import BoxScript.Proofs.Tree.Rewriting

namespace BoxScript

/-! ## How runs end -/

/-- The statements of functions are changed by `g`; all else is the same. -/
structure Machine.Rewritten (g : Tree → Tree) (m m' : Machine) : Prop where
  store : m'.store = m.store.mapBodies g
  console : m'.console = m.console
  clock : m'.clock = m.clock
  lines : m'.lines = m.lines

/-- Runs that end with the same value or for the same reason, but for the statements of functions,
    which are changed by `g`.  Errors of the language are related by `E`. -/
inductive EndsAlike (g : Tree → Tree) (E : EvalError → EvalError → Prop) :
    EStateM.Result Halt Machine Value → EStateM.Result Halt Machine Value → Prop
  | ok (v : Value) {m m' : Machine} (h : m.Rewritten g m') :
      EndsAlike g E (.ok v m) (.ok (v.mapBodies g) m')
  | error {e e' : EvalError} {m m' : Machine} (he : E e e') (h : m.Rewritten g m') :
      EndsAlike g E (.error (.error e) m) (.error (.error e') m')
  | halt (halt : Halt) {m m' : Machine} (h : m.Rewritten g m') :
      EndsAlike g E (.error halt m) (.error halt m')

theorem EndsAlike.of_error {g : Tree → Tree} {E : EvalError → EvalError → Prop} {halt halt' : Halt}
    {m m' : Machine} (h : EndsAlike g E (.error halt m) (.error halt' m')) : m.Rewritten g m' := by
  cases h with
  | error _ h => exact h
  | halt _ h => exact h

/-! ## Two runs -/

/-- Two runs with the same settings: one of a program whose trees have the shape `S`, and one of
    the program rewritten by `f`. -/
def Likeness.rewriting (cfg : Settings) (S : Tree → Prop) (f : Tree → Tree)
    (E : EvalError → EvalError → Prop) : Likeness where
  cfg := cfg
  level := cfg.traceLevel
  Trees := Tree.Rewritten S f
  Errors := E
  level_le := (exact cfg).level_le
  sink := (exact cfg).sink

section

variable {cfg : Settings} {S : Tree → Prop} {f : Tree → Tree} {E : EvalError → EvalError → Prop}

theorem Likeness.Machines.rewritten {m m' : Machine}
    (h : (rewriting cfg S f E).Machines m m') : m.Rewritten (Tree.rewrite f) m' where
  store := h.store.eq_mapBodies fun _ _ ht => ht.eq
  console := h.console
  clock := h.clock
  lines := h.same rfl

theorem Likeness.rewriting_start (input : String) (clock : Clock) :
    (rewriting cfg S f E).Machines (.start input clock) (.start input clock) :=
  ⟨Store.start_like _, rfl, rfl, List.Sublist.refl _, fun _ => rfl⟩

/-- **Evaluation does as that of the rewritten tree**, if it does so at each node.  The second
    evaluation may be at any greater depth, also if it has skipped a node. -/
theorem Likeness.rewriting_evaluators
    (hstep : ∀ {depth : Nat},
      (∀ {depth'}, depth ≤ depth' →
        (rewriting cfg S f E).Evaluators (evaluate cfg depth) (evaluate cfg depth')) →
      ∀ {depth' : Nat} {t : Tree} (r : ScopeRef), depth ≤ depth' → S t →
        (rewriting cfg S f E).Follows (rewriting cfg S f E).Values
          (evaluate cfg (depth + 1) t r) (evaluate cfg (depth' + 1) (t.rewrite f) r))
    {depth depth' : Nat} (hd : depth ≤ depth') :
    (rewriting cfg S f E).Evaluators (evaluate cfg depth) (evaluate cfg depth') := by
  induction depth generalizing depth' with
  | zero => exact fun _ _ _ _ => follows_cut (cuts_limit _)
  | succ depth ih =>
    obtain ⟨d, rfl⟩ : ∃ d, depth' = d + 1 := ⟨depth' - 1, by omega⟩
    rintro t _ r ⟨hS, rfl⟩
    cases habs : t.isAbsent with
    | true =>
      -- what is left out is no node, and evaluation fails on it
      cases t with
      | null => exact leaf_follows (L := rewriting cfg S f E) (by omega) (t := .null) trivial r
      | _ => cases habs
    | false => exact hstep ih r (by omega) (hS habs)

theorem endsAlike_of_agrees {cut : Halt} {x y : EStateM.Result Halt Machine Value}
    (h : Agrees ((Likeness.rewriting cfg S f E).Cuts cut) (Likeness.rewriting cfg S f E).Halts
      (Likeness.rewriting cfg S f E).Machines (Likeness.rewriting cfg S f E).Values x y) :
    (∃ m, x = .error cut m) ∨ EndsAlike (Tree.rewrite f) E x y := by
  cases h with
  | cut hcut =>
    rw [(Likeness.cuts_iff rfl).1 hcut]
    exact Or.inl ⟨_, rfl⟩
  | ok hv hm =>
    rw [hv.eq_mapBodies fun _ _ ht => ht.eq]
    exact Or.inr (.ok _ hm.rewritten)
  | error he hm =>
    cases he with
    | error he => exact Or.inr (.error he hm.rewritten)
    | same => exact Or.inr (.halt _ hm.rewritten)

/-- **Runs of a program and of the rewritten one end alike**, unless one of them ends in a stack
    overflow.  If errors can differ then nothing may be traced, as the log tells an error. -/
theorem runProgram_endsAlike
    (heval : ∀ {depth depth'}, depth ≤ depth' →
      (Likeness.rewriting cfg S f E).Evaluators (evaluate cfg depth) (evaluate cfg depth'))
    (hE : cfg.traceLevel = 0 ∨ ∀ e e', E e e' → e' = e)
    (hf : ∀ body, f (.program body) = .program body) {items : List Tree}
    (hS : ∀ t ∈ items, S t) (hp : S (.program (.list items))) {depth depth' : Nat}
    {input : String} {clock : Clock}
    (hrun : ∀ m, runProgram cfg depth (.program (.list items)) .global (.start input clock) ≠
      .error (.error .stackOverflow) m)
    (hrun' : ∀ m, runProgram cfg depth' (Tree.rewrite f (.program (.list items))) .global
      (.start input clock) ≠ .error (.error .stackOverflow) m) :
    EndsAlike (Tree.rewrite f) E
      (runProgram cfg depth (.program (.list items)) .global (.start input clock))
      (runProgram cfg depth' (Tree.rewrite f (.program (.list items))) .global
        (.start input clock)) := by
  have hbody : Tree.BodyLike (Tree.Rewritten S f) (.program (.list items))
      (Tree.rewrite f (.program (.list items))) := by
    rw [Tree.rewrite, hf]
    exact ⟨rfl, .some (Tree.sequenceLike_rewrite hS)⟩
  -- the second run goes under the higher limit, where it ends as it does under its own
  have htop : depth ≤ max depth depth' := Nat.le_max_left _ _
  have hfollows := Likeness.runProgram_follows (L := .rewriting cfg S f E) htop (heval htop) hE
    (Tree.Rewritten.of hp) hbody .global _ _ (Likeness.rewriting_start input clock)
  have hhigher : Extends (.error .stackOverflow)
      (runProgram cfg depth' (Tree.rewrite f (.program (.list items))) .global) _ :=
    runProgram_extends (Nat.le_max_right depth depth') _ _
  rcases hhigher (.start input clock) with ⟨m, hover⟩ | hsame
  · exact absurd hover (hrun' m)
  · rcases endsAlike_of_agrees hfollows with ⟨m, hover⟩ | halike
    · exact absurd hover (hrun m)
    · rw [← hsame]
      exact halike

end

end BoxScript
