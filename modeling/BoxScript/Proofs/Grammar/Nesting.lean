/-
  How deep parsers nest.

  Statements and primaries are parsed by parsers that call themselves, one level of nesting at a
  time, and such a call comes only after a token was taken.  So there are never more levels than
  tokens before the end of input, and one for the end of input itself.

  * `Cursor.ahead`: the number of tokens before the end of input;
  * `Unhindered x c`: from `c`, the parser is not stopped by the limit on nesting;
  * `primary_unhindered`, `statement_unhindered`, `program_unhindered`: **a limit above the number
    of tokens ahead is not hit**, whatever the tokens are.
-/
import BoxScript.Proofs.Grammar.Completeness

namespace BoxScript

open Grammar

/-! ## The tokens ahead -/

namespace Cursor

variable {c c' : Cursor} {ts : List Token}

/-- The number of tokens before the next end of input. -/
def ahead (c : Cursor) : Nat := (beforeEnd c.tokens).length

theorem Spans.ahead (h : c.Spans ts c') : c.ahead = ts.length + c'.ahead := by
  have hin : ∀ t ∈ ts, decide (t.kind ≠ .endOfInput) = true := fun t ht =>
    decide_eq_true (h.inside t ht)
  unfold Cursor.ahead beforeEnd
  rw [h.eq, List.takeWhile_append_of_pos hin, List.length_append]

/-- In a closed list, the tokens ahead are followed by one. -/
theorem Closed.ahead_le (hc : c.Closed) : c.ahead ≤ c.later.length := by
  obtain ⟨c', hs, -⟩ := spans_beforeEnd hc
  rw [hs.length]
  exact Nat.le_add_right _ _

/-- Where no token is ahead, there is the end of input. -/
theorem Closed.kind_of_ahead (hc : c.Closed) (h : c.ahead = 0) : c.current.kind = .endOfInput := by
  obtain ⟨c', hs, hk⟩ := spans_beforeEnd hc
  rw [List.length_eq_zero_iff.1 h] at hs
  rwa [eq_of_spans_nil hs]

end Cursor

/-! ## Parsers that the limit does not stop -/

variable {α β : Type} {c : Cursor} {n : Nat}

/-- From `c`, the parser goes forward, or it stops for another reason than the limit. -/
def Unhindered (x : Parse α) (c : Cursor) : Prop :=
  Ends x c (fun _ c' => ∃ ts, c.Spans ts c') fun e _ => e ≠ .tooDeep

/-- The limit does not stop the parser where fewer than `n` tokens are ahead. -/
def UnhinderedBelow (n : Nat) (x : Parse α) : Prop :=
  ∀ c : Cursor, c.Closed → c.ahead < n → Unhindered x c

theorem UnhinderedBelow.mono {x : Parse α} {m : Nat} (h : UnhinderedBelow n x) (hmn : m ≤ n) :
    UnhinderedBelow m x :=
  fun c hc hlt => h c hc (Nat.lt_of_lt_of_le hlt hmn)

theorem UnhinderedBelow.bind {x : Parse α} {f : α → Parse β} (hx : UnhinderedBelow n x)
    (hf : ∀ a, UnhinderedBelow n (f a)) : UnhinderedBelow n (x >>= f) := by
  intro c hc hlt
  unfold Unhindered
  rw [ends_bind]
  refine Ends.imp (hx c hc hlt) (fun a c₁ ⟨ts, hs⟩ => ?_) fun _ _ h => h
  have hahead := hs.ahead
  refine Ends.imp (hf a c₁ (hs.closed hc) (by omega)) (fun b c₂ ⟨ts', hs'⟩ => ?_) fun _ _ h => h
  exact ⟨ts ++ ts', hs.trans hs'⟩

theorem unhindered_pure (a : α) : UnhinderedBelow n (pure a : Parse α) :=
  fun c _ _ => ⟨[], .refl c⟩

theorem unhindered_throw {e : Obstacle} (h : e ≠ .tooDeep) :
    UnhinderedBelow n (throw e : Parse α) :=
  fun _ _ _ => h

theorem unhindered_refuse (complaint : Complaint) :
    UnhinderedBelow n (Parse.refuse complaint : Parse α) := by
  intro c _ _ he
  cases he

theorem UnhinderedBelow.discard {x : Parse α} (hx : UnhinderedBelow n x) :
    UnhinderedBelow n (discard x) :=
  hx.bind fun _ => unhindered_pure _

theorem unhindered_kind {f : Kind → Parse α} (h : ∀ k, UnhinderedBelow n (f k)) :
    UnhinderedBelow n (Parse.kind >>= f) :=
  fun c hc hlt => h c.current.kind c hc hlt

theorem unhindered_kind_at {f : Kind → Parse α} (h : Unhindered (f c.current.kind) c) :
    Unhindered (Parse.kind >>= f) c := h

theorem unhindered_remaining {f : Nat → Parse α} (h : ∀ rounds, UnhinderedBelow n (f rounds)) :
    UnhinderedBelow n (Parse.remaining >>= f) :=
  fun c hc hlt => h c.later.length c hc hlt

/-! Taking a token. -/

theorem unhindered_advance : UnhinderedBelow n Parse.advance := by
  intro c hc _
  by_cases hk : c.current.kind = .endOfInput
  · -- the end of input is not passed
    refine ⟨[], ?_⟩
    show c.Spans [] c.next
    rw [Cursor.next, if_pos hk]
    exact .refl c
  · exact ⟨[c.current], hc.spans hk⟩

theorem unhindered_expect (k : Kind) (what : Expectation) :
    UnhinderedBelow n (Parse.expect k what) := by
  unfold Parse.expect
  refine unhindered_kind fun k' => ?_
  split
  · exact unhindered_advance
  · exact unhindered_refuse _

theorem unhindered_expectName (what : Expectation) :
    UnhinderedBelow n (Parse.expectName what) := by
  unfold Parse.expectName
  intro c hc hlt
  show Unhindered (ite _ _ _) c
  split
  · exact unhindered_advance.bind (fun _ => unhindered_pure _) c hc hlt
  · exact (unhindered_expect _ _).bind (fun _ => unhindered_pure _) c hc hlt

theorem unhindered_skipIf (k : Kind) : UnhinderedBelow n (Parse.skipIf k) := by
  unfold Parse.skipIf
  refine unhindered_kind fun k' => ?_
  split
  · exact unhindered_advance.discard
  · exact unhindered_pure _

/-- After a token is taken, there is one less ahead. -/
theorem unhindered_after_advance {f : Token → Parse α} (hf : ∀ tok, UnhinderedBelow n (f tok))
    (hc : c.Closed) (hlt : c.ahead < n + 1) (hk : c.current.kind ≠ .endOfInput) :
    Unhindered (Parse.advance >>= f) c := by
  have hs := hc.spans hk
  have hahead := hs.ahead
  rw [List.length_singleton] at hahead
  refine Ends.imp (hf c.current c.next (hs.closed hc) (by omega)) (fun _ c' ⟨ts, hs'⟩ => ?_)
    fun _ _ h => h
  exact ⟨[c.current] ++ ts, hs.trans hs'⟩

theorem unhindered_after_drop {f : PUnit → Parse α} (hf : UnhinderedBelow n (f ⟨⟩))
    (hc : c.Closed) (hlt : c.ahead < n + 1) (hk : c.current.kind ≠ .endOfInput) :
    Unhindered (discard Parse.advance >>= f) c :=
  unhindered_after_advance (f := fun _ => f ⟨⟩) (fun _ => hf) hc hlt hk

theorem unhindered_after_expect {k : Kind} {what : Expectation} {f : PUnit → Parse α}
    (hk : k ≠ .endOfInput) (hf : UnhinderedBelow n (f ⟨⟩)) :
    UnhinderedBelow (n + 1) (discard (Parse.expect k what) >>= f) := by
  intro c hc hlt
  unfold Unhindered Parse.expect
  rw [ends_bind, ends_discard, ends_kind]
  split
  · next h => exact ends_bind.1 (unhindered_after_advance (fun _ => hf) hc hlt (h ▸ hk))
  · exact fun he => by cases he

namespace Grammar

open Parse

variable {p : Parse Tree}

/-! ## Expressions -/

section
variable (hp : UnhinderedBelow n p)
include hp

theorem chainRest_unhindered (joins : Kind → Bool) (join : Tree → Tree → Tree → Tree) :
    ∀ (rounds : Nat) (left : Tree), UnhinderedBelow n (chainRest p joins join rounds left) := by
  intro rounds
  induction rounds with
  | zero => exact fun left => unhindered_pure left
  | succ rounds ih =>
    intro left
    unfold chainRest
    refine unhindered_kind fun k => ?_
    split
    · exact unhindered_advance.bind fun operator => hp.bind fun right => ih _
    · exact unhindered_pure left

theorem chain_unhindered (joins : Kind → Bool) (join : Tree → Tree → Tree → Tree) :
    UnhinderedBelow n (chain p joins join) := by
  unfold chain
  refine hp.bind fun first => unhindered_remaining fun rounds => ?_
  exact chainRest_unhindered hp joins join rounds first

theorem expression_unhindered : UnhinderedBelow n (expression p) :=
  chain_unhindered hp _ _

theorem condition_unhindered : UnhinderedBelow n (condition p) :=
  chain_unhindered (chain_unhindered hp _ _) _ _

omit hp in
theorem skipSeparator_unhindered : UnhinderedBelow n skipSeparator := by
  unfold skipSeparator
  refine unhindered_kind fun k => ?_
  split
  · exact unhindered_advance.discard
  · exact unhindered_pure _

theorem elements_unhindered : ∀ rounds, UnhinderedBelow n (elements p rounds) := by
  intro rounds
  induction rounds with
  | zero => exact unhindered_pure []
  | succ rounds ih =>
    unfold elements
    refine unhindered_kind fun k => ?_
    split
    · exact unhindered_advance.discard.bind fun _ => unhindered_pure _
    · exact unhindered_refuse _
    · refine (expression_unhindered hp).bind fun element => ?_
      exact skipSeparator_unhindered.bind fun _ => ih.bind fun _ => unhindered_pure _

theorem arguments_unhindered : ∀ rounds, UnhinderedBelow n (arguments p rounds) := by
  intro rounds
  induction rounds with
  | zero => exact unhindered_pure []
  | succ rounds ih =>
    unfold arguments
    refine unhindered_kind fun k => ?_
    split
    · exact unhindered_advance.discard.bind fun _ => unhindered_pure _
    · exact unhindered_refuse _
    · refine (expression_unhindered hp).bind fun argument => (unhindered_skipIf _).bind fun _ => ?_
      exact ih.bind fun _ => unhindered_pure _

theorem suffixes_unhindered :
    ∀ (rounds : Nat) (base : Tree), UnhinderedBelow n (suffixes p rounds base) := by
  intro rounds
  induction rounds with
  | zero => exact fun base => unhindered_pure base
  | succ rounds ih =>
    intro base
    unfold suffixes
    refine unhindered_kind fun k => ?_
    split
    · refine unhindered_advance.discard.bind fun _ => ?_
      refine (expression_unhindered hp).bind fun index => ?_
      exact (unhindered_expect _ _).discard.bind fun _ => ih _
    · refine unhindered_advance.discard.bind fun _ => unhindered_remaining fun m => ?_
      exact (arguments_unhindered hp (m + 1)).bind fun args => ih _
    · exact unhindered_pure base

theorem named_unhindered (name : String) : UnhinderedBelow n (named p name) := by
  unfold named
  exact unhindered_remaining fun rounds => suffixes_unhindered hp rounds _

/-- An array takes its bracket first. -/
theorem arrayLiteral_unhindered : UnhinderedBelow (n + 1) (arrayLiteral p) := by
  unfold arrayLiteral
  refine unhindered_after_expect (by simp) (unhindered_remaining fun m => ?_)
  exact (elements_unhindered hp (m + 1)).bind fun _ => unhindered_pure _

/-- A primary takes a token before it parses one inside it. -/
theorem primaryStep_unhindered : UnhinderedBelow (n + 1) (primaryStep p) := by
  intro c hc hlt
  unfold primaryStep
  show Unhindered (ite _ _ _) c
  split
  · next hat =>
    have hk := (atName_iff.1 hat).1.ne_endOfInput
    exact unhindered_after_advance (fun name => named_unhindered hp name.text) hc hlt hk
  · refine unhindered_kind_at ?_
    split
    · next hk =>
      refine unhindered_after_advance (fun tok => ?_) hc hlt (by simp [hk])
      split
      · exact unhindered_pure _
      · exact unhindered_throw (by simp)
    · next hk =>
      exact unhindered_after_advance (fun _ => unhindered_pure _) hc hlt (by simp [hk])
    · next hk =>
      exact unhindered_after_advance (fun _ => unhindered_pure _) hc hlt (by simp [hk])
    · exact arrayLiteral_unhindered hp c hc hlt
    · next hk =>
      have hinner := chain_unhindered (expression_unhindered hp) Kind.isLogical .logicalExpression
      refine unhindered_after_drop ?_ hc hlt (by simp [hk])
      exact hinner.bind fun _ => (unhindered_expect _ _).discard.bind fun _ => unhindered_pure _
    · next hk =>
      refine unhindered_after_advance (fun sign => ?_) hc hlt (by simp [hk])
      exact hp.bind fun _ => unhindered_pure _
    · next hk =>
      refine unhindered_after_drop ?_ hc hlt (by simp [hk])
      exact hp.bind fun _ => unhindered_pure _
    · exact unhindered_refuse _ c hc hlt

end

/-- **Primaries nest no deeper than there are tokens.** -/
theorem primary_unhindered : ∀ depth, UnhinderedBelow depth (primary depth)
  | 0 => fun _ _ hlt => absurd hlt (Nat.not_lt_zero _)
  | depth + 1 => primaryStep_unhindered (primary_unhindered depth)

/-! ## Statements

Each statement takes its keyword or its name before it parses what is inside it. -/

section
variable {st : Parse Tree} (hst : UnhinderedBelow n st)

section
include hst

theorem statements_unhindered (closes : Kind → Bool) :
    ∀ rounds, UnhinderedBelow n (statements st closes rounds) := by
  intro rounds
  induction rounds with
  | zero => exact unhindered_pure []
  | succ rounds ih =>
    unfold statements
    refine unhindered_kind fun k => ?_
    split
    · exact unhindered_pure _
    · split
      · exact unhindered_refuse _
      · exact hst.bind fun first => ih.bind fun _ => unhindered_pure _

theorem body_unhindered (closes : Kind → Bool) : UnhinderedBelow n (body st closes) := by
  unfold body
  refine unhindered_remaining fun m => (statements_unhindered hst closes (m + 1)).bind fun _ => ?_
  exact unhindered_advance.bind fun _ => unhindered_pure _

end

theorem parameters_unhindered : ∀ rounds, UnhinderedBelow n (parameters rounds) := by
  intro rounds
  induction rounds with
  | zero => exact unhindered_pure []
  | succ rounds ih =>
    unfold parameters
    refine unhindered_kind fun k => ?_
    split
    · exact unhindered_advance.discard.bind fun _ => unhindered_pure _
    · refine (unhindered_expectName _).bind fun name => (unhindered_skipIf _).bind fun _ => ?_
      exact ih.bind fun _ => unhindered_pure _

variable (hp : UnhinderedBelow n p) (hc : c.Closed) (hlt : c.ahead < n + 1)
  (hk : c.current.kind ≠ .endOfInput)
include hc hlt hk

include hst in
theorem functionStatement_unhindered : Unhindered (functionStatement st) c := by
  unfold functionStatement
  refine unhindered_after_drop ?_ hc hlt hk
  refine (unhindered_expectName _).bind fun name => ?_
  refine (unhindered_expect _ _).discard.bind fun _ => unhindered_remaining fun m => ?_
  refine (parameters_unhindered (m + 1)).bind fun params => ?_
  refine (unhindered_expect _ _).discard.bind fun _ => ?_
  exact (body_unhindered hst _).bind fun _ => unhindered_pure _

include hp

theorem boxStatement_unhindered : Unhindered (boxStatement p) c := by
  unfold boxStatement
  refine unhindered_after_drop ?_ hc hlt hk
  refine (unhindered_expectName _).bind fun name => unhindered_kind fun k => ?_
  split
  · exact (unhindered_expect _ _).discard.bind fun _ => unhindered_pure _
  · refine (unhindered_expect _ _).discard.bind fun _ => (expression_unhindered hp).bind fun _ => ?_
    exact (unhindered_expect _ _).discard.bind fun _ => unhindered_pure _

theorem noChangeStatement_unhindered : Unhindered (noChangeStatement p) c := by
  unfold noChangeStatement
  refine unhindered_after_drop ?_ hc hlt hk
  refine (unhindered_expectName _).bind fun name => ?_
  refine (unhindered_expect _ _).discard.bind fun _ => (expression_unhindered hp).bind fun _ => ?_
  exact (unhindered_expect _ _).discard.bind fun _ => unhindered_pure _

theorem returnStatement_unhindered : Unhindered (returnStatement p) c := by
  unfold returnStatement
  refine unhindered_after_drop (unhindered_kind fun k => ?_) hc hlt hk
  split
  · exact (unhindered_expect _ _).discard.bind fun _ => unhindered_pure _
  · refine (expression_unhindered hp).bind fun _ => ?_
    exact (unhindered_expect _ _).discard.bind fun _ => unhindered_pure _

theorem nameStatement_unhindered : Unhindered (nameStatement p) c := by
  unfold nameStatement
  refine unhindered_after_advance (fun name => ?_) hc hlt hk
  refine (named_unhindered hp name.text).bind fun target => unhindered_kind fun k => ?_
  split
  · split
    · refine unhindered_advance.discard.bind fun _ => (expression_unhindered hp).bind fun _ => ?_
      exact (unhindered_expect _ _).discard.bind fun _ => unhindered_pure _
    · exact unhindered_refuse _
  · split
    · exact unhindered_pure _
    · exact unhindered_refuse _

theorem boxesStatement_unhindered : Unhindered (boxesStatement p) c := by
  have harray := (arrayLiteral_unhindered hp).mono (Nat.le_succ n)
  unfold boxesStatement
  refine unhindered_after_drop ?_ hc hlt hk
  refine (unhindered_expectName _).bind fun name => ?_
  refine (unhindered_expect _ _).discard.bind fun _ => harray.bind fun _ => ?_
  exact (unhindered_expect _ _).discard.bind fun _ => unhindered_pure _

/-- A condition with the keyword before it, and what comes after it. -/
theorem test_unhindered {negated : Kind} {f : Tree → Parse Tree}
    (hf : ∀ t, UnhinderedBelow n (f t)) : Unhindered (test p negated >>= f) c := by
  unfold test
  rw [bind_assoc]
  refine unhindered_after_advance (fun keyword => ?_) hc hlt hk
  exact ((condition_unhindered hp).bind fun _ => unhindered_pure _).bind hf

include hst

theorem ifStatement_unhindered : Unhindered (ifStatement p st) c := by
  unfold ifStatement
  refine test_unhindered hp hc hlt hk fun test => ?_
  refine (unhindered_expect _ _).discard.bind fun _ => (body_unhindered hst _).bind fun r => ?_
  obtain ⟨consequent, closing⟩ := r
  simp only
  split
  · refine (unhindered_skipIf _).bind fun _ => ?_
    exact (body_unhindered hst _).bind fun _ => unhindered_pure _
  · exact unhindered_pure _

theorem whileStatement_unhindered : Unhindered (whileStatement p st) c := by
  unfold whileStatement
  refine test_unhindered hp hc hlt hk fun test => ?_
  refine (unhindered_expect _ _).discard.bind fun _ => ?_
  exact (body_unhindered hst _).bind fun _ => unhindered_pure _

theorem forStatement_unhindered : Unhindered (forStatement p st) c := by
  unfold forStatement
  refine unhindered_after_drop ?_ hc hlt hk
  refine (unhindered_expectName _).bind fun name => ?_
  refine (unhindered_expect _ _).discard.bind fun _ => (expression_unhindered hp).bind fun _ => ?_
  refine (unhindered_expect _ _).discard.bind fun _ => (expression_unhindered hp).bind fun _ => ?_
  refine (unhindered_expect _ _).discard.bind fun _ => ?_
  exact (body_unhindered hst _).bind fun _ => unhindered_pure _

end

theorem statementStep_unhindered {st : Parse Tree} (hp : UnhinderedBelow n p)
    (hst : UnhinderedBelow n st) : UnhinderedBelow (n + 1) (statementStep p st) := by
  intro c hc hlt
  unfold statementStep
  refine unhindered_kind_at ?_
  split
  · next hk => exact boxStatement_unhindered hp hc hlt (by simp [hk])
  · next hk => exact noChangeStatement_unhindered hp hc hlt (by simp [hk])
  · next hk => exact boxesStatement_unhindered hp hc hlt (by simp [hk])
  · next hk => exact ifStatement_unhindered hst hp hc hlt (by simp [hk])
  · next hk => exact ifStatement_unhindered hst hp hc hlt (by simp [hk])
  · next hk => exact whileStatement_unhindered hst hp hc hlt (by simp [hk])
  · next hk => exact whileStatement_unhindered hst hp hc hlt (by simp [hk])
  · next hk => exact forStatement_unhindered hst hp hc hlt (by simp [hk])
  · next hk => exact functionStatement_unhindered hst hc hlt (by simp [hk])
  · next hk => exact returnStatement_unhindered hp hc hlt (by simp [hk])
  · next hk => exact nameStatement_unhindered hp hc hlt (by simp [hk])
  · show Unhindered (ite _ _ _) c
    split
    · next hw =>
      have hname : c.current.IsName := Or.inr hw
      exact nameStatement_unhindered hp hc hlt hname.ne_endOfInput
    · exact unhindered_refuse _ c hc hlt

/-- **Statements nest no deeper than there are tokens.** -/
theorem statement_unhindered : ∀ depth, UnhinderedBelow depth (statement depth)
  | 0 => fun _ _ hlt => absurd hlt (Nat.not_lt_zero _)
  | depth + 1 => statementStep_unhindered (primary_unhindered depth) (statement_unhindered depth)

theorem program_unhindered (depth : Nat) : UnhinderedBelow depth (program depth) := by
  unfold program
  refine unhindered_remaining fun m => ?_
  exact (statements_unhindered (statement_unhindered depth) _ (m + 1)).bind fun _ =>
    unhindered_pure _

end Grammar

end BoxScript
