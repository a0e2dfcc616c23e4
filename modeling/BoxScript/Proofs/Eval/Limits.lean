/-
  Limits on nesting: all that a higher limit changes is that an overflow may not happen.

  A limit is met as an overflow, and nothing that parses, evaluates or shows a value goes on after
  one.  So what ends otherwise ends in the same way under every higher limit.

  * `Extends cut x y`: `y` does exactly as `x` does, unless `x` ends with `cut`;
  * `Likeness.exact`: two runs of the same program with the same settings;
  * `Grammar.parseTokens_extends`, `evalStep_extends`, `call_extends` and `runProgram_extends`: this
    is how parsing, nodes, calls and whole runs depend on the limit;
  * `Store.PartOf`: a value is an element or an entry of another one, which has no text if the part
    has none;
  * `limit_only_overflows`: **a limit only ever adds overflows.**
-/
import BoxScript.Proofs.Eval.Following
import BoxScript.Proofs.Grammar.Continuation

namespace BoxScript

/-- The computation `y` does exactly as `x` does, unless `x` ends with `cut`. -/
def Extends {ε σ α : Type} (cut : ε) (x y : EStateM ε σ α) : Prop :=
  ∀ s, (∃ s', x s = .error cut s') ∨ y s = x s

/-! ## Parsing -/

namespace Grammar

theorem program_extends {depth depth' : Nat} (h : depth ≤ depth') {c : Cursor} (hc : c.Closed) :
    (∃ c', program depth c = .error .tooDeep c') ∨ program depth' c = program depth c := by
  have hrepeats := program_parallel h c c hc hc
  unfold Repeats at hrepeats
  cases hrun : program depth c with
  | ok t c' =>
    rw [ends_of_ok hrun] at hrepeats
    obtain ⟨ts, hs, hagain⟩ := hrepeats
    exact Or.inr (hagain c' hs rfl)
  | error e c' =>
    rw [ends_of_error hrun] at hrepeats
    by_cases he : e = .tooDeep
    · exact Or.inl ⟨c', by rw [he]⟩
    · obtain ⟨ts, hs, hagain⟩ := hrepeats he
      exact Or.inr (hagain c' hs rfl)

/-- Token lists are parsed alike under all limits that are high enough. -/
theorem parseTokens_extends {depth depth' : Nat} (h : depth ≤ depth') (tokens : List Token) :
    parseTokens depth tokens = .error .tooDeep ∨
      parseTokens depth' tokens = parseTokens depth tokens := by
  unfold parseTokens
  cases hc : Cursor.ofList? tokens with
  | none => exact Or.inr rfl
  | some c =>
    rcases program_extends h (Cursor.closed_of_ofList? hc) with ⟨c', hdeep⟩ | hsame
    · simp only [hdeep]
      exact Or.inl trivial
    · simp only [hsame]
      exact Or.inr trivial

end Grammar

/-! ## Evaluation -/

/-- Two runs of the same program with the same settings. -/
def Likeness.exact (cfg : Settings) : Likeness :=
  .same cfg cfg.traceLevel (Nat.le_refl _) fun h => absurd h (Nat.lt_irrefl _)

section

variable {cfg : Settings} {cut : Halt} {limit limit' : Nat}

theorem Likeness.exact_machines {m m' : Machine} : (exact cfg).Machines m m' ↔ m' = m := by
  constructor
  · intro h
    obtain ⟨store, console, clock, lines⟩ := m
    obtain ⟨store', console', clock', lines'⟩ := m'
    obtain rfl : store' = store := Store.like_eq_iff.1 h.store
    obtain rfl : console' = console := h.console
    obtain rfl : clock' = clock := h.clock
    obtain rfl : lines' = lines := h.same rfl
    rfl
  · rintro rfl
    exact same_machines _

/-- Such a run does as the other one if it does exactly the same. -/
theorem Likeness.exact_follows_iff {x y : Run Value} :
    BoxScript.Follows ((exact cfg).Cuts cut) (exact cfg).Halts (exact cfg).Machines
      (exact cfg).Values x y ↔ Extends cut x y := by
  constructor
  · intro h m
    have hagrees := h m m (same_machines m)
    revert hagrees
    generalize x m = result, y m = result'
    rintro (hcut | ⟨hv, hm⟩ | ⟨he, hm⟩)
    · rw [(cuts_iff rfl).1 hcut]
      exact Or.inl ⟨_, rfl⟩
    · rw [Value.like_eq_iff.1 hv, exact_machines.1 hm]
      exact Or.inr rfl
    · rw [same_halts.1 he, exact_machines.1 hm]
      exact Or.inr rfl
  · intro h m m' hm
    obtain rfl := exact_machines.1 hm
    rcases h m' with ⟨m₁, hcut⟩ | hsame
    · rw [hcut]
      exact .cut (cuts_limit _)
    · rw [hsame]
      cases x m' with
      | ok v m₁ => exact .ok (Value.like_eq_iff.2 rfl) (same_machines m₁)
      | error e m₁ => exact .error (.same e) (same_machines m₁)

theorem Likeness.exact_evaluators {eval eval' : Evaluator}
    (h : ∀ t r, Extends .overflow (eval t r) (eval' t r)) : (exact cfg).Evaluators eval eval' := by
  rintro t _ r rfl
  exact exact_follows_iff.2 (h t r)

/-- The result of a node does not depend on what is done where the evaluation of a part, or the
    text of a value, overflows. -/
theorem evalStep_extends (h : limit ≤ limit') {eval eval' : Evaluator}
    (heval : ∀ t r, Extends .overflow (eval t r) (eval' t r)) (t : Tree) (r : ScopeRef) :
    Extends .overflow (Eval.evalStep cfg limit eval t r) (Eval.evalStep cfg limit' eval' t r) := by
  have hevaluators : (Likeness.exact cfg).Evaluators eval eval' := Likeness.exact_evaluators heval
  exact Likeness.exact_follows_iff.1
    (Likeness.evalStep_follows hevaluators h (Likeness.same_like t) r)

/-- So it is with the result of a call. -/
theorem call_extends (h : limit ≤ limit') {eval eval' : Evaluator}
    (heval : ∀ t r, Extends .overflow (eval t r) (eval' t r)) (f : Value) (args : List Value)
    (r : ScopeRef) :
    Extends .overflow (Eval.call cfg limit eval f args r)
      (Eval.call cfg limit' eval' f args r) := by
  have hevaluators : (Likeness.exact cfg).Evaluators eval eval' := Likeness.exact_evaluators heval
  have hsame : ∀ v, (Likeness.exact cfg).Values v v := fun _ => Value.like_eq_iff.2 rfl
  exact Likeness.exact_follows_iff.1 (Likeness.call_follows hevaluators h (hsame f)
    (List.forall₂_same.2 fun v _ => hsame v) r)

/-- A run ends in the same way under all limits that are high enough. -/
theorem runProgram_extends (h : limit ≤ limit') (program : Tree) (scope : ScopeRef) :
    Extends (.error .stackOverflow) (runProgram cfg limit program scope)
      (runProgram cfg limit' program scope) :=
  Likeness.exact_follows_iff.1 (Likeness.runProgram_same h program scope)

end

/-! ## Texts -/

/-- The value is an element of an array, or an entry of an object. -/
inductive Store.PartOf (s : Store) (part : Value) : Value → Prop
  | element {a : ArrayRef} (h : part ∈ s.items a) : PartOf s part (.array a)
  | entry {o : ObjectRef} {name : Name} (h : (name, part) ∈ s.entries o) : PartOf s part (.object o)

/-- A value with a part that has no text has none. -/
theorem Store.display?_eq_none_of_partOf {s : Store} {part v : Value} {depth : Nat}
    (h : s.PartOf part v) (hnone : s.display? depth part = none) :
    s.display? (depth + 1) v = none := by
  cases h with
  | element h =>
    have hpart : (s.display? depth part).map (bracketed part) = none := by rw [hnone]; rfl
    simp only [display?]
    rw [mapM_eq_none (Array.mem_toList_iff.2 h) hpart]
    rfl
  | entry h =>
    simp only [display?]
    rw [mapM_eq_none h (by simp only [hnone]; rfl)]
    rfl

/-- Printing overflows if an argument has no text. -/
theorem print_overflows {m : Machine} {args : List Value} {v : Value} {depth : Nat} (hv : v ∈ args)
    (h : m.store.display? depth v = none) : Native.print depth args m = .error .overflow m := by
  have htexts : args.mapM (Run.display depth) m = .error .overflow m := by
    induction args with
    | nil => cases hv
    | cons w args ih =>
      rw [List.mapM_cons]
      cases hw : m.store.display? depth w with
      | none => exact bind_of_error (Run.display_of_none hw)
      | some text =>
        rw [bind_of_ok (Run.display_of_some hw)]
        have hmem : v ∈ args := by
          rcases List.mem_cons.1 hv with rfl | hv
          · rw [h] at hw
            cases hw
          · exact hv
        exact bind_of_error (ih hmem)
  exact bind_of_error htexts

/-- Asking overflows if the prompt has no text. -/
theorem input_overflows {m : Machine} {prompt : Value} {depth : Nat} (scope : ScopeRef)
    (name : String) (h : m.store.display? depth prompt = none) :
    Native.input depth scope [.string name, prompt] m = .error .overflow m := by
  unfold Native.input
  exact bind_of_error (Run.display_of_none h)

/-- **A limit only ever adds overflows.**  What is parsed, or run, without an overflow under some
    limit has the same result under every higher one, with the same machine at the end.

    No construct turns an overflow that is met inside it into something else.  For the evaluator:
    as long as a node, or a call, does not overflow itself, its result stays the same whatever
    the evaluation of its parts may do where it has overflowed so far.  For the text of a value: it
    has none if a part has none.  For native functions: they overflow if a text that they need
    does. -/
theorem limit_only_overflows {limit limit' : Nat} (h : limit ≤ limit') :
    (∀ tokens, parseTokens limit tokens = .error .tooDeep ∨
      parseTokens limit' tokens = parseTokens limit tokens) ∧
    (∀ cfg program scope, Extends (.error .stackOverflow) (runProgram cfg limit program scope)
      (runProgram cfg limit' program scope)) ∧
    (∀ cfg eval eval', (∀ t r, Extends .overflow (eval t r) (eval' t r)) →
      (∀ t r, Extends .overflow (Eval.evalStep cfg limit eval t r)
        (Eval.evalStep cfg limit' eval' t r)) ∧
      ∀ f args r, Extends .overflow (Eval.call cfg limit eval f args r)
        (Eval.call cfg limit' eval' f args r)) ∧
    (∀ s : Store, (∀ v, s.display? limit v = none ∨ s.display? limit' v = s.display? limit v) ∧
      ∀ part v, s.PartOf part v → s.display? limit part = none →
        s.display? (limit + 1) v = none) ∧
    ∀ m : Machine,
      (∀ args v, v ∈ args → m.store.display? limit v = none →
        Native.print limit args m = .error .overflow m) ∧
      ∀ scope name prompt, m.store.display? limit prompt = none →
        Native.input limit scope [.string name, prompt] m = .error .overflow m := by
  refine ⟨Grammar.parseTokens_extends h, fun cfg => runProgram_extends h,
    fun cfg eval eval' heval => ⟨evalStep_extends h heval, call_extends h heval⟩,
    fun s => ⟨fun v => ?_, fun part v => Store.display?_eq_none_of_partOf⟩,
    fun m => ⟨fun args v => print_overflows, fun scope name prompt => input_overflows scope name⟩⟩
  cases htext : s.display? limit v with
  | none => exact Or.inl rfl
  | some text =>
    have hlike : s.Like Eq s := Store.like_eq_iff.2 rfl
    exact Or.inr (hlike.display? h (Value.like_eq_iff.2 rfl) htext)

/-- The tokens of `print([["a"]])`. -/
def Grammar.nestedPrint : List Token :=
  [bare .identifier "print", bare .beginParams "(", bare .openArray "[", bare .openArray "[",
   bare .string "a", bare .closeArray "]", bare .closeArray "]", bare .endParams ")",
   bare .endOfInput ""]

/-- The tree of `print([["a"]])`. -/
def Tree.nestedPrint : Tree :=
  .program (.list [.callExpression (.identifier (.text "print"))
    (.list [.arrayLiteral (.list [.arrayLiteral (.list [.stringLiteral (.text "a")])])])])

/-- The least limits under which `print([["a"]])` is parsed and run, and higher ones. -/
theorem limit_only_overflows_nestedPrint :
    let run := fun limit =>
      runProgram { passes := 1 } limit .nestedPrint .global (.start "" (.counting 0))
    parseTokens 3 Grammar.nestedPrint = .error .tooDeep ∧
      parseTokens 4 Grammar.nestedPrint = .ok .nestedPrint ∧
      parseTokens 300 Grammar.nestedPrint = .ok .nestedPrint ∧
      (∃ m, run 4 = .error (.error .stackOverflow) m) ∧
      ∃ m, m.console.output = "[a]\n" ∧ run 5 = .ok .null m ∧ run 1000 = .ok .null m := by
  intro run
  have hparse : parseTokens 4 Grammar.nestedPrint = .ok .nestedPrint := by rfl
  obtain ⟨m, hrun, hout⟩ : ∃ m, run 5 = .ok .null m ∧ m.console.output = "[a]\n" :=
    ⟨_, by rfl, by rfl⟩
  have hhigher : 4 ≤ 300 ∧ 5 ≤ 1000 := by decide
  have hparse' := (limit_only_overflows hhigher.1).1 Grammar.nestedPrint
  have hrun' := (limit_only_overflows hhigher.2).2.1 { passes := 1 } .nestedPrint
    .global (.start "" (.counting 0))
  refine ⟨by rfl, hparse, ?_, ⟨_, by rfl⟩, m, hout, hrun, ?_⟩
  · rw [hparse] at hparse'
    exact hparse'.resolve_left nofun
  · rcases hrun' with ⟨m', hover⟩ | hsame
    · exact nomatch hrun.symm.trans hover
    · exact hsame.trans hrun

end BoxScript
