/-
  What parsers look at.

  `Repeats x c y d`: wherever `x` ends from the place `c`, `y` ends in the same way from the
  place `d`, if the tokens from `d` on are those from `c` on, up to the one at which `x` ends and
  with it.  So nothing that comes after this token is looked at.  The two parsers may differ in
  their limits on nesting, the second being the larger one, and in the rounds of their loops.

  There is one lemma for each parser, and `program_parallel` ties the knot.
-/
import BoxScript.Proofs.Grammar.Soundness

namespace BoxScript

open Grammar

variable {α β : Type}

/-! ## Tokens that come again -/

namespace Cursor

variable {c c' c₁ d d' : Cursor} {ts ts' : List Token}

theorem Spans.unique (h : c.Spans ts c') (h' : c.Spans ts' c') : ts = ts' :=
  List.append_cancel_right (h.eq.symm.trans h'.eq)

/-- The current token comes again with the tokens that lead on from it. -/
theorem Spans.current_eq (h : c.Spans ts c') (h' : d.Spans ts d')
    (hcur : d'.current = c'.current) : d.current = c.current := by
  cases ts with
  | nil => rw [eq_of_spans_nil h, eq_of_spans_nil h', hcur]
  | cons tok ts => rw [h.cons.1, h'.cons.1]

/-- At every place that is reached from `d` by the tokens between `c` and `c'`, and at which the
    token of `c'` stands, `P` holds. -/
def Again (c c' d : Cursor) (P : Cursor → Prop) : Prop :=
  ∃ ts, c.Spans ts c' ∧ ∀ d', d.Spans ts d' → d'.current = c'.current → P d'

theorem Again.imp {P Q : Cursor → Prop} (h : c.Again c' d P)
    (hPQ : d.current = c.current → ∀ d', P d' → Q d') : c.Again c' d Q := by
  obtain ⟨ts, hs, hP⟩ := h
  exact ⟨ts, hs, fun d' hd hcur => hPQ (hs.current_eq hd hcur) d' (hP d' hd hcur)⟩

theorem again_refl {P : Cursor → Prop} (h : d.current = c.current → P d) : c.Again c d P := by
  refine ⟨[], .refl c, fun d' hd hcur => ?_⟩
  obtain rfl := eq_of_spans_nil hd
  exact h hcur

/-- The place on the last token of a list. -/
theorem closed_last (tok : Token) (h : tok.kind = .endOfInput) : Closed ⟨tok, []⟩ := ⟨tok, rfl, h⟩

/-- After some tokens that come again, others may come again.  What is known is known of every
    place in a short list, so that it is of use even if there is no place to go on from. -/
theorem Again.after {P : Cursor → Cursor → Prop} (hs : c.Spans ts c₁) (hd : d.Closed)
    (h : ∀ d₁ : Cursor, d₁.Closed → d₁.later.length ≤ d.later.length - ts.length →
      c₁.Again c' d₁ (P d₁)) :
    c.Again c' d fun d' => ∃ d₁, d.Spans ts d₁ ∧ d₁.current = c₁.current ∧ P d₁ d' := by
  obtain ⟨ts', hs', -⟩ := h _ (closed_last ⟨.endOfInput, "", none, none⟩ rfl) (Nat.zero_le _)
  refine ⟨ts ++ ts', hs.trans hs', fun d' hd' hcur => ?_⟩
  obtain ⟨d₁, hd₁, hd₂⟩ := hd'.split
  have hlen := hd₁.length
  obtain ⟨ts'', hs'', hP⟩ := h d₁ (hd₁.closed hd) (by omega)
  obtain rfl := hs''.unique hs'
  exact ⟨d₁, hd₁, hs''.current_eq hd₂ hcur, hP d' hd₂ hcur⟩

end Cursor

/-! ## Parsers that repeat others -/

/-- What `x` does from `c` is done by `y` from `d`, if the tokens come again that `x` uses and
    the one at which it ends.  A limit on nesting that `x` hits need not be hit by `y`. -/
def Repeats (x : Parse α) (c : Cursor) (y : Parse α) (d : Cursor) : Prop :=
  Ends x c (fun a c' => c.Again c' d fun d' => y d = .ok a d')
    fun e c' => e ≠ .tooDeep → c.Again c' d fun d' => y d = .error e d'

section Repeats

variable {x y : Parse α} {c d : Cursor}

/-- Only what the parsers do at the two places matters. -/
theorem Repeats.congr {x' y' : Parse α} (h : Repeats x c y d) (hx : x' c = x c)
    (hy : d.current = c.current → y' d = y d) : Repeats x' c y' d := by
  unfold Repeats Ends
  rw [hx]
  exact Ends.imp h (fun _ _ h => h.imp fun hcur _ hd => (hy hcur).trans hd)
    fun _ _ h he => (h he).imp fun hcur _ hd => (hy hcur).trans hd

/-- One parser after another.  The rest is looked at from every place in a list that is as
    short as what is left after the first. -/
theorem Repeats.bind {f g : α → Parse β} (hd : d.Closed) (hx : Repeats x c y d)
    (hf : ∀ a ts c₁ d₁, x c = .ok a c₁ → c.Spans ts c₁ → d₁.Closed →
      d₁.later.length ≤ d.later.length - ts.length → Repeats (f a) c₁ (g a) d₁) :
    Repeats (x >>= f) c (y >>= g) d := by
  unfold Repeats at hx ⊢
  cases hrun : x c with
  | error e c₁ =>
    rw [ends_of_error hrun] at hx
    rw [ends_of_error (bind_of_error hrun)]
    exact fun he => (hx he).imp fun _ d' h => bind_of_error h
  | ok a c₁ =>
    rw [ends_of_ok hrun] at hx
    obtain ⟨ts, hs, hy⟩ := hx
    have hrest := fun d₁ => hf a ts c₁ d₁ hrun hs
    unfold Repeats at hrest
    cases hrun' : f a c₁ with
    | ok b c₂ =>
      simp only [ends_of_ok hrun'] at hrest
      rw [ends_of_ok ((bind_of_ok hrun).trans hrun')]
      refine (Cursor.Again.after hs hd hrest).imp fun _ d' ⟨d₁, hd₁, hcur, hg⟩ => ?_
      rw [bind_of_ok (hy d₁ hd₁ hcur), hg]
    | error e c₂ =>
      simp only [ends_of_error hrun'] at hrest
      rw [ends_of_error ((bind_of_ok hrun).trans hrun')]
      intro he
      refine (Cursor.Again.after hs hd fun d₁ h h' => hrest d₁ h h' he).imp
        fun _ d' ⟨d₁, hd₁, hcur, hg⟩ => ?_
      rw [bind_of_ok (hy d₁ hd₁ hcur), hg]

theorem repeats_tooDeep : Repeats (throw .tooDeep) c y d := fun he => absurd rfl he

/-! Looking at the current token moves nothing. -/

theorem repeats_kind {f g : Kind → Parse α}
    (h : Repeats (f c.current.kind) c (g c.current.kind) d) :
    Repeats (Parse.kind >>= f) c (Parse.kind >>= g) d :=
  h.congr rfl fun hcur => by rw [← hcur]; rfl

theorem repeats_get {f g : Cursor → Parse α} (h : Repeats (f c) c (g c) d)
    (hg : d.current = c.current → g d d = g c d) : Repeats (get >>= f) c (get >>= g) d :=
  h.congr rfl hg

theorem repeats_remaining {f g : Nat → Parse α}
    (h : Repeats (f c.later.length) c (g d.later.length) d) :
    Repeats (Parse.remaining >>= f) c (Parse.remaining >>= g) d := h

/-- A token is taken, and then the one after it was looked at too. -/
theorem repeats_advance_bind {f g : Token → Parse α} (hc : c.Closed) (hd : d.Closed)
    (hk : c.current.kind ≠ .endOfInput)
    (hf : ∀ d₁ : Cursor, d₁.Closed → Repeats (f c.current) c.next (g c.current) d₁)
    (hy : d.current = c.current → d.lookahead.kind = c.lookahead.kind →
      y d = (Parse.advance >>= g) d) : Repeats (Parse.advance >>= f) c y d := by
  have hs := hc.spans hk
  have hlook : c.lookahead.kind = c.next.current.kind := hs.cons_lookahead
  have hgo : ∀ d₁ d' : Cursor, d.Spans [c.current] d₁ → d₁.current = c.next.current →
      y d = g c.current d₁ := fun d₁ d' hd₁ hcur => by
    obtain ⟨hcur', -, hnext⟩ := hd₁.cons
    obtain rfl := Cursor.eq_of_spans_nil hnext
    rw [hy hcur' (by rw [hd₁.cons_lookahead, hlook, ← hcur]; rfl), ← hcur']
    rfl
  unfold Repeats at hf ⊢
  rw [ends_bind]
  refine ends_modifyGet.2 ?_
  cases hrun : f c.current c.next with
  | ok a c' =>
    simp only [ends_of_ok hrun] at hf ⊢
    refine (Cursor.Again.after hs hd fun d₁ h _ => hf d₁ h).imp
      fun _ d' ⟨d₁, hd₁, hcur, hg⟩ => (hgo d₁ d' hd₁ hcur).trans hg
  | error e c' =>
    simp only [ends_of_error hrun] at hf ⊢
    exact fun he => (Cursor.Again.after hs hd fun d₁ h _ => hf d₁ h he).imp
      fun _ d' ⟨d₁, hd₁, hcur, hg⟩ => (hgo d₁ d' hd₁ hcur).trans hg

end Repeats

/-- `y` repeats `x` from all places. -/
def Parallel (x y : Parse α) : Prop := ∀ c d : Cursor, c.Closed → d.Closed → Repeats x c y d

section Parallel

variable {x y : Parse α}

theorem Parallel.bind {f g : α → Parse β} (hx : Parallel x y)
    (hf : ∀ a, Parallel (f a) (g a)) : Parallel (x >>= f) (y >>= g) :=
  fun c d hc hd => (hx c d hc hd).bind hd fun a _ c₁ d₁ _ hs hd₁ _ =>
    hf a c₁ d₁ (hs.closed hc) hd₁

/-- From one place the two parsers do the same, but for the limit on nesting. -/
theorem Parallel.same (h : Parallel x y) {c : Cursor} (hc : c.Closed) :
    Ends x c (fun a c' => y c = .ok a c') fun e c' => e ≠ .tooDeep → y c = .error e c' :=
  Ends.imp (h c c hc hc) (fun _ c' ⟨_, hs, hy⟩ => hy c' hs rfl)
    fun _ c' hx he => (hx he).elim fun _ ⟨hs, hy⟩ => hy c' hs rfl

theorem parallel_pure (a : α) : Parallel (pure a) (pure a) :=
  fun _ _ _ _ => Cursor.again_refl fun _ => rfl

theorem parallel_throw (e : Obstacle) : Parallel (throw e : Parse α) (throw e) :=
  fun _ _ _ _ _ => Cursor.again_refl fun _ => rfl

theorem parallel_refuse (complaint : Complaint) :
    Parallel (Parse.refuse complaint : Parse α) (Parse.refuse complaint) :=
  fun _ _ _ _ _ => Cursor.again_refl fun hcur => by rw [← hcur]; rfl

theorem Parallel.discard (hx : Parallel x y) : Parallel (discard x) (discard y) :=
  hx.bind fun _ => parallel_pure _

theorem parallel_kind {f g : Kind → Parse α} (h : ∀ k, Parallel (f k) (g k)) :
    Parallel (Parse.kind >>= f) (Parse.kind >>= g) :=
  fun c d hc hd => repeats_kind (h _ c d hc hd)

theorem parallel_peek {f g : Token → Parse α} (h : ∀ tok, Parallel (f tok) (g tok)) :
    Parallel (Parse.peek >>= f) (Parse.peek >>= g) :=
  fun c d hc hd => (h c.current c d hc hd).congr rfl fun hcur => by rw [← hcur]; rfl

theorem parallel_advance : Parallel Parse.advance Parse.advance := by
  intro c d hc hd
  by_cases hk : c.current.kind = .endOfInput
  · -- the end of input is not passed
    have hnext : c.next = c := by rw [Cursor.next, if_pos hk]
    show c.Again c.next d _
    rw [hnext]
    refine Cursor.again_refl fun hcur => ?_
    show EStateM.Result.ok d.current d.next = _
    rw [Cursor.next, hcur, if_pos hk]
  · refine ⟨[c.current], hc.spans hk, fun d' hd' _ => ?_⟩
    obtain ⟨hcur, -, hnext⟩ := hd'.cons
    show EStateM.Result.ok d.current d.next = _
    rw [hcur, Cursor.eq_of_spans_nil hnext]

theorem parallel_expect (k : Kind) (what : Expectation) :
    Parallel (Parse.expect k what) (Parse.expect k what) := by
  unfold Parse.expect
  refine parallel_kind fun k' => ?_
  split
  · exact parallel_advance
  · exact parallel_refuse _

theorem parallel_expectName (what : Expectation) :
    Parallel (Parse.expectName what) (Parse.expectName what) := by
  unfold Parse.expectName
  refine parallel_peek fun tok => ?_
  split
  · exact parallel_advance.bind fun _ => parallel_pure _
  · exact (parallel_expect _ _).bind fun _ => parallel_pure _

theorem parallel_skipIf (k : Kind) : Parallel (Parse.skipIf k) (Parse.skipIf k) := by
  unfold Parse.skipIf
  refine parallel_kind fun k' => ?_
  split
  · exact parallel_advance.discard
  · exact parallel_pure _

end Parallel

namespace Grammar

open Parse

/-- A parser of the form that succeeds has used a token. -/
theorem Parses.progress {x : Parse Tree} {form : Form} {c c' : Cursor} {t : Tree}
    (hx : Parses x form) (hf : form.canBeEmpty = false) (hc : c.Closed) (h : x c = .ok t c') :
    c'.later.length < c.later.length := by
  obtain ⟨ts, hs, ht⟩ := (ends_of_ok h).1 (hx c hc)
  have hpos := ht.length_pos hf
  have hlen := hs.length
  omega

variable {p q : Parse Tree} {c d : Cursor}

/-! ## Loops

At the end of input a loop ends, whatever its rounds are. -/

theorem kind_bind (f : Kind → Parse α) (c : Cursor) : (kind >>= f) c = f c.current.kind c := rfl

/-- A loop with as many rounds as there are tokens left has a round to go. -/
theorem exists_round {f : Nat → Parse α} {rounds : Nat} (hd : d.Closed)
    (hlen : d.later.length ≤ rounds)
    (hlast : d.current.kind = .endOfInput → ∀ m n, f m d = f n d) :
    ∃ n, d.later.length ≤ n + 1 ∧ f rounds d = f (n + 1) d := by
  cases rounds with
  | zero => exact ⟨0, by omega, hlast (hd.kind_of_last (Nat.le_zero.1 hlen)) _ _⟩
  | succ n => exact ⟨n, hlen, rfl⟩

theorem chainRest_last {k : Chain} {left : Tree} (h : c.current.kind = .endOfInput)
    (rounds : Nat) : chainRest p k.joins k.join rounds left c = .ok left c := by
  cases rounds with
  | zero => rfl
  | succ rounds =>
    unfold chainRest
    rw [kind_bind, h]
    cases k <;> rfl

theorem suffixes_last {base : Tree} (h : c.current.kind = .endOfInput) (rounds : Nat) :
    suffixes p rounds base c = .ok base c := by
  cases rounds with
  | zero => rfl
  | succ rounds =>
    unfold suffixes
    rw [kind_bind, h]
    rfl

theorem elements_last (h : c.current.kind = .endOfInput) (rounds : Nat) :
    elements p (rounds + 1) c = refuse (.expected .arrayClose) c := by
  unfold elements
  rw [kind_bind, h]

theorem arguments_last (h : c.current.kind = .endOfInput) (rounds : Nat) :
    arguments p (rounds + 1) c = refuse (.expected .argumentsClose) c := by
  unfold arguments
  rw [kind_bind, h]

theorem expectName_last {what : Expectation} (h : c.current.kind = .endOfInput) :
    expectName what c = refuse (.expected what) c := by
  have hword : ¬c.current.isWordOperator = true := by
    simp [Token.isWordOperator, h, Kind.isOperator, Kind.isArithmetic, Kind.isComparison]
  have hexpect : expect .identifier what c = refuse (.expected what) c := by
    unfold expect
    rw [kind_bind, if_neg (by simp [h])]
  have hrun : expectName what c = (if c.current.isWordOperator then
      advance >>= fun tok => pure tok.text
    else expect .identifier what >>= fun tok => pure tok.text : Parse String) c := rfl
  rw [hrun, if_neg hword]
  exact bind_of_error hexpect

theorem parameters_last (h : c.current.kind = .endOfInput) (rounds : Nat) :
    parameters (rounds + 1) c = refuse (.expected .parameterName) c := by
  unfold parameters
  rw [kind_bind, if_neg (by simp [h])]
  exact bind_of_error (expectName_last h)

theorem statements_last {closes : Kind → Bool} (h : c.current.kind = .endOfInput)
    (rounds : Nat) : statements p closes (rounds + 1) c =
      (if closes .endOfInput then pure [] else refuse (.expected .bodyEnd)) c := by
  unfold statements
  rw [kind_bind, h]
  rfl

/-! ## Chains -/

theorem chainRest_repeats {k : Chain} (hp : Parses p k.operand) (h : Parallel p q) :
    ∀ (rounds rounds' : Nat) {c d : Cursor} {left : Tree}, c.Closed → d.Closed →
      c.later.length ≤ rounds → d.later.length ≤ rounds' →
      Repeats (chainRest p k.joins k.join rounds left) c
        (chainRest q k.joins k.join rounds' left) d := by
  intro rounds
  induction rounds with
  | zero =>
    intro rounds' c d left hc hd hlen hlen'
    have hend : c.current.kind = .endOfInput := hc.kind_of_last (Nat.le_zero.1 hlen)
    refine (parallel_pure left c d hc hd).congr rfl fun hcur => ?_
    exact chainRest_last (by rw [hcur, hend]) rounds'
  | succ rounds ih =>
    intro rounds' c d left hc hd hlen hlen'
    obtain ⟨n, hn, hround⟩ := exists_round
      (f := fun n => chainRest q k.joins k.join n left) hd hlen' fun he m n => by
        simp only [chainRest_last he]
    refine Repeats.congr ?_ rfl fun _ => hround
    unfold chainRest
    refine repeats_kind ?_
    split
    · refine (parallel_advance c d hc hd).bind hd fun op ts c₁ d₁ hrun hs hd₁ hlen₁ => ?_
      have hc₁ := hs.closed hc
      refine (h c₁ d₁ hc₁ hd₁).bind hd₁ fun right ts' c₂ d₂ hrun' hs' hd₂ hlen₂ => ?_
      have hprogress := hp.progress (by cases k <;> rfl) hc₁ hrun'
      have := hs.length
      have := hs'.length
      exact ih n (hs'.closed hc₁) hd₂ (by omega) (by omega)
    · exact parallel_pure left c d hc hd

theorem chain_parallel {k : Chain} (hp : Parses p k.operand) (h : Parallel p q) :
    Parallel (chain p k.joins k.join) (chain q k.joins k.join) := by
  intro c d hc hd
  unfold chain
  refine (h c d hc hd).bind hd fun first ts c₁ d₁ _ hs hd₁ _ => repeats_remaining ?_
  exact chainRest_repeats hp h _ _ (hs.closed hc) hd₁ (Nat.le_refl _) (Nat.le_refl _)

section
variable (hp : Parses p .primary) (h : Parallel p q)
include hp h

theorem expression_parallel : Parallel (expression p) (expression q) :=
  chain_parallel (k := .expression) hp h

theorem condition_parallel : Parallel (condition p) (condition q) :=
  chain_parallel (k := .condition) (chain_parses (k := .comparison) hp)
    (chain_parallel (k := .comparison) hp h)

theorem group_parallel : Parallel (group p) (group q) := by
  unfold group
  refine parallel_advance.discard.bind fun _ => ?_
  refine (chain_parallel (k := .grouped) (expression_parses hp)
    (expression_parallel hp h)).bind fun inner => ?_
  exact (parallel_expect _ _).discard.bind fun _ => parallel_pure inner

/-! ## Lists in brackets -/

omit hp h in
theorem skipSeparator_parallel : Parallel skipSeparator skipSeparator := by
  unfold skipSeparator
  refine parallel_kind fun k => ?_
  split
  · exact parallel_advance.discard
  · exact parallel_pure _

theorem elements_repeats : ∀ (rounds rounds' : Nat) {c d : Cursor}, c.Closed → d.Closed →
    c.later.length ≤ rounds → d.later.length ≤ rounds' →
    Repeats (elements p (rounds + 1)) c (elements q (rounds' + 1)) d := by
  intro rounds
  induction rounds with
  | zero =>
    intro rounds' c d hc hd hlen hlen'
    have hend : c.current.kind = .endOfInput := hc.kind_of_last (Nat.le_zero.1 hlen)
    refine (parallel_refuse _ c d hc hd).congr (elements_last hend 0) fun hcur => ?_
    exact elements_last (by rw [hcur, hend]) rounds'
  | succ rounds ih =>
    intro rounds' c d hc hd hlen hlen'
    obtain ⟨n, hn, hround⟩ := exists_round (f := fun n => elements q (n + 1)) hd hlen'
      fun he m n => by simp only [elements_last he]
    refine Repeats.congr ?_ rfl fun _ => hround
    rw [elements, elements]
    refine repeats_kind ?_
    split
    · exact parallel_advance.discard.bind (fun _ => parallel_pure _) c d hc hd
    · exact parallel_refuse _ c d hc hd
    · refine (expression_parallel hp h c d hc hd).bind hd
        fun t ts c₁ d₁ hrun hs hd₁ hlen₁ => ?_
      have hc₁ := hs.closed hc
      refine (skipSeparator_parallel c₁ d₁ hc₁ hd₁).bind hd₁
        fun _ sep c₂ d₂ _ hs₂ hd₂ hlen₂ => ?_
      have hc₂ := hs₂.closed hc₁
      have hprogress := (expression_parses hp).progress rfl hc hrun
      have := hs.length
      have := hs₂.length
      refine (ih n hc₂ hd₂ (by omega) (by omega)).bind hd₂
        fun items ts' c₃ d₃ _ hs₃ hd₃ _ => ?_
      exact parallel_pure _ c₃ d₃ (hs₃.closed hc₂) hd₃

theorem arrayLiteral_parallel : Parallel (arrayLiteral p) (arrayLiteral q) := by
  intro c d hc hd
  unfold arrayLiteral
  refine ((parallel_expect _ _).discard c d hc hd).bind hd
    fun _ ts c₁ d₁ _ hs hd₁ _ => repeats_remaining ?_
  have hc₁ := hs.closed hc
  refine (elements_repeats hp h _ _ hc₁ hd₁ (Nat.le_refl _) (Nat.le_refl _)).bind hd₁
    fun items ts' c₂ d₂ _ hs₂ hd₂ _ => ?_
  exact parallel_pure _ c₂ d₂ (hs₂.closed hc₁) hd₂

theorem arguments_repeats : ∀ (rounds rounds' : Nat) {c d : Cursor}, c.Closed → d.Closed →
    c.later.length ≤ rounds → d.later.length ≤ rounds' →
    Repeats (arguments p (rounds + 1)) c (arguments q (rounds' + 1)) d := by
  intro rounds
  induction rounds with
  | zero =>
    intro rounds' c d hc hd hlen hlen'
    have hend : c.current.kind = .endOfInput := hc.kind_of_last (Nat.le_zero.1 hlen)
    refine (parallel_refuse _ c d hc hd).congr (arguments_last hend 0) fun hcur => ?_
    exact arguments_last (by rw [hcur, hend]) rounds'
  | succ rounds ih =>
    intro rounds' c d hc hd hlen hlen'
    obtain ⟨n, hn, hround⟩ := exists_round (f := fun n => arguments q (n + 1)) hd hlen'
      fun he m n => by simp only [arguments_last he]
    refine Repeats.congr ?_ rfl fun _ => hround
    rw [arguments, arguments]
    refine repeats_kind ?_
    split
    · exact parallel_advance.discard.bind (fun _ => parallel_pure _) c d hc hd
    · exact parallel_refuse _ c d hc hd
    · refine (expression_parallel hp h c d hc hd).bind hd
        fun t ts c₁ d₁ hrun hs hd₁ hlen₁ => ?_
      have hc₁ := hs.closed hc
      refine (parallel_skipIf _ c₁ d₁ hc₁ hd₁).bind hd₁ fun _ sep c₂ d₂ _ hs₂ hd₂ hlen₂ => ?_
      have hc₂ := hs₂.closed hc₁
      have hprogress := (expression_parses hp).progress rfl hc hrun
      have := hs.length
      have := hs₂.length
      refine (ih n hc₂ hd₂ (by omega) (by omega)).bind hd₂
        fun args ts' c₃ d₃ _ hs₃ hd₃ _ => ?_
      exact parallel_pure _ c₃ d₃ (hs₃.closed hc₂) hd₃

/-! ## Names -/

theorem suffixes_repeats : ∀ (rounds rounds' : Nat) {c d : Cursor} {base : Tree}, c.Closed →
    d.Closed → c.later.length ≤ rounds → d.later.length ≤ rounds' →
    Repeats (suffixes p rounds base) c (suffixes q rounds' base) d := by
  intro rounds
  induction rounds with
  | zero =>
    intro rounds' c d base hc hd hlen hlen'
    have hend : c.current.kind = .endOfInput := hc.kind_of_last (Nat.le_zero.1 hlen)
    refine (parallel_pure base c d hc hd).congr rfl fun hcur => ?_
    exact suffixes_last (by rw [hcur, hend]) rounds'
  | succ rounds ih =>
    intro rounds' c d base hc hd hlen hlen'
    obtain ⟨n, hn, hround⟩ := exists_round (f := fun n => suffixes q n base) hd hlen'
      fun he m n => by simp only [suffixes_last he]
    refine Repeats.congr ?_ rfl fun _ => hround
    unfold suffixes
    refine repeats_kind ?_
    split
    · refine (parallel_advance.discard c d hc hd).bind hd
        fun _ ts c₁ d₁ _ hs hd₁ hlen₁ => ?_
      have hc₁ := hs.closed hc
      refine (expression_parallel hp h c₁ d₁ hc₁ hd₁).bind hd₁
        fun t ts' c₂ d₂ hrun hs₂ hd₂ hlen₂ => ?_
      have hc₂ := hs₂.closed hc₁
      refine ((parallel_expect _ _).discard c₂ d₂ hc₂ hd₂).bind hd₂
        fun _ ts'' c₃ d₃ _ hs₃ hd₃ hlen₃ => ?_
      have hprogress := (expression_parses hp).progress rfl hc₁ hrun
      have := hs.length
      have := hs₂.length
      have := hs₃.length
      exact ih n (hs₃.closed hc₂) hd₃ (by omega) (by omega)
    · next hk =>
      have hnext := (hc.spans (by simp [hk])).length
      simp only [List.length_singleton] at hnext
      refine (parallel_advance.discard c d hc hd).bind hd
        fun _ ts c₁ d₁ hrun hs hd₁ hlen₁ => repeats_remaining ?_
      have hc₁ := hs.closed hc
      obtain rfl : c.next = c₁ := by cases hrun; rfl
      refine (arguments_repeats hp h _ _ hc₁ hd₁ (Nat.le_refl _) (Nat.le_refl _)).bind
        hd₁ fun args ts' c₂ d₂ _ hs₂ hd₂ hlen₂ => ?_
      have := hs.length
      have := hs₂.length
      exact ih n (hs₂.closed hc₁) hd₂ (by omega) (by omega)
    · exact parallel_pure base c d hc hd

theorem named_parallel (name : String) : Parallel (named p name) (named q name) := by
  intro c d hc hd
  unfold named
  refine repeats_remaining ?_
  exact suffixes_repeats hp h _ _ hc hd (Nat.le_refl _) (Nat.le_refl _)

/-! ## Primaries -/

omit hp h in
/-- Only before a sign does it matter which token comes next. -/
theorem atName_eq (hcur : d.current = c.current)
    (hlook : c.current.kind = .minus → d.lookahead.kind = c.lookahead.kind) :
    atName d = atName c := by
  rw [Bool.eq_iff_iff, atName_iff, atName_iff, hcur]
  refine and_congr_right fun _ => forall_congr' fun hm => ?_
  rw [hlook hm]

omit hp h in
theorem primaryStep_name (h : atName c = true) :
    primaryStep p c = (advance >>= fun name => named p name.text) c := by
  have hrun : primaryStep p c = (if atName c then advance >>= fun name => named p name.text
      else _ : Parse Tree) c := rfl
  rw [hrun, if_pos h]

omit hp h in
theorem primaryStep_sign (h : ¬atName c = true) (hm : c.current.kind = .minus) :
    primaryStep p c =
      (advance >>= fun sign => p >>= fun t => pure (.unaryExpression (.text sign.text) t)) c := by
  unfold primaryStep
  show (ite _ _ _ : Parse Tree) c = _
  rw [if_neg h, kind_bind, hm]

theorem primaryStep_parallel : Parallel (primaryStep p) (primaryStep q) := by
  intro c d hc hd
  have hname : ∀ tok : Token, Parallel (named p tok.text) (named q tok.text) := fun tok =>
    named_parallel hp h tok.text
  by_cases hm : c.current.kind = .minus
  · -- the token is taken in any case, so it does no harm to look at the next one
    have hk : c.current.kind ≠ .endOfInput := by simp [hm]
    have hc₁ := (hc.spans hk).closed hc
    by_cases hat : atName c = true
    · refine (repeats_advance_bind (g := fun name => named q name.text) hc hd hk
        (fun d₁ => hname c.current c.next d₁ hc₁) fun hcur hlook => ?_).congr
          (primaryStep_name hat) fun _ => rfl
      exact primaryStep_name (by rw [atName_eq hcur fun _ => hlook, hat])
    · have hsign : ∀ tok : Token,
          Parallel (p >>= fun t => pure (Tree.unaryExpression (.text tok.text) t))
            (q >>= fun t => pure (.unaryExpression (.text tok.text) t)) := fun tok =>
        h.bind fun _ => parallel_pure _
      refine (repeats_advance_bind
        (g := fun sign => q >>= fun t => pure (.unaryExpression (.text sign.text) t)) hc hd hk
        (fun d₁ => hsign c.current c.next d₁ hc₁) fun hcur hlook => ?_).congr
          (primaryStep_sign hat hm) fun _ => rfl
      exact primaryStep_sign (by rwa [atName_eq hcur fun _ => hlook]) (hcur ▸ hm)
  · refine repeats_get ?_ fun hcur => ?_
    · split
      · exact parallel_advance.bind (fun tok => hname tok) c d hc hd
      · refine repeats_kind ?_
        split
        · refine parallel_advance.bind (fun tok => ?_) c d hc hd
          split
          · exact parallel_pure _
          · exact parallel_throw _
        · exact parallel_advance.bind (fun _ => parallel_pure _) c d hc hd
        · exact parallel_advance.bind (fun _ => parallel_pure _) c d hc hd
        · exact arrayLiteral_parallel hp h c d hc hd
        · exact group_parallel hp h c d hc hd
        · next hm' => exact absurd hm' hm
        · exact parallel_advance.discard.bind (fun _ => h.bind fun _ => parallel_pure _) c d hc hd
        · exact parallel_refuse _ c d hc hd
    · simp only [atName_eq hcur fun hm' => absurd hm' hm]

end

/-- A larger limit on nesting changes nothing but where the limit is hit. -/
theorem primary_parallel : ∀ {depth depth' : Nat}, depth ≤ depth' →
    Parallel (primary depth) (primary depth')
  | 0, _, _ => fun _ _ _ _ => repeats_tooDeep
  | depth + 1, _ + 1, h =>
    primaryStep_parallel (primary_parses depth) (primary_parallel (Nat.le_of_succ_le_succ h))

/-! ## Statements -/

section
variable {st st' : Parse Tree} (hst : Parses st .statement) (h' : Parallel st st')

section
include hst h'

theorem statements_repeats {closes : Kind → Bool} : ∀ (rounds rounds' : Nat) {c d : Cursor},
    c.Closed → d.Closed → c.later.length ≤ rounds → d.later.length ≤ rounds' →
    Repeats (statements st closes (rounds + 1)) c (statements st' closes (rounds' + 1)) d := by
  intro rounds
  induction rounds with
  | zero =>
    intro rounds' c d hc hd hlen hlen'
    have hend : c.current.kind = .endOfInput := hc.kind_of_last (Nat.le_zero.1 hlen)
    have hlast : Parallel
        (if closes .endOfInput then pure [] else refuse (.expected .bodyEnd) : Parse (List Tree))
        (if closes .endOfInput then pure [] else refuse (.expected .bodyEnd)) := by
      split
      · exact parallel_pure _
      · exact parallel_refuse _
    refine (hlast c d hc hd).congr (statements_last hend 0) fun hcur => ?_
    exact statements_last (by rw [hcur, hend]) rounds'
  | succ rounds ih =>
    intro rounds' c d hc hd hlen hlen'
    obtain ⟨n, hn, hround⟩ := exists_round (f := fun n => statements st' closes (n + 1)) hd hlen'
      fun he m n => by simp only [statements_last he]
    refine Repeats.congr ?_ rfl fun _ => hround
    rw [statements, statements]
    refine repeats_kind ?_
    split
    · exact parallel_pure _ c d hc hd
    · split
      · exact parallel_refuse _ c d hc hd
      · refine (h' c d hc hd).bind hd fun t ts c₁ d₁ hrun hs hd₁ hlen₁ => ?_
        have hc₁ := hs.closed hc
        have hprogress := hst.progress rfl hc hrun
        have := hs.length
        refine (ih n hc₁ hd₁ (by omega) (by omega)).bind hd₁
          fun items ts' c₂ d₂ _ hs₂ hd₂ _ => ?_
        exact parallel_pure _ c₂ d₂ (hs₂.closed hc₁) hd₂

theorem body_parallel (closes : Kind → Bool) : Parallel (body st closes) (body st' closes) := by
  intro c d hc hd
  unfold body
  refine repeats_remaining ?_
  refine (statements_repeats hst h' _ _ hc hd (Nat.le_refl _) (Nat.le_refl _)).bind hd
    fun items ts c₁ d₁ _ hs hd₁ _ => ?_
  exact parallel_advance.bind (fun _ => parallel_pure _) c₁ d₁ (hs.closed hc) hd₁

end

theorem parameters_repeats : ∀ (rounds rounds' : Nat) {c d : Cursor}, c.Closed → d.Closed →
    c.later.length ≤ rounds → d.later.length ≤ rounds' →
    Repeats (parameters (rounds + 1)) c (parameters (rounds' + 1)) d := by
  intro rounds
  induction rounds with
  | zero =>
    intro rounds' c d hc hd hlen hlen'
    have hend : c.current.kind = .endOfInput := hc.kind_of_last (Nat.le_zero.1 hlen)
    refine (parallel_refuse _ c d hc hd).congr (parameters_last hend 0) fun hcur => ?_
    exact parameters_last (by rw [hcur, hend]) rounds'
  | succ rounds ih =>
    intro rounds' c d hc hd hlen hlen'
    obtain ⟨n, hn, hround⟩ := exists_round (f := fun n => parameters (n + 1)) hd hlen'
      fun he m n => by simp only [parameters_last he]
    refine Repeats.congr ?_ rfl fun _ => hround
    rw [parameters, parameters]
    refine repeats_kind ?_
    split
    · exact parallel_advance.discard.bind (fun _ => parallel_pure _) c d hc hd
    · refine (parallel_expectName _ c d hc hd).bind hd fun name ts c₁ d₁ hrun hs hd₁ hlen₁ => ?_
      have hc₁ := hs.closed hc
      obtain ⟨ts', hs', _, rfl, -⟩ := (ends_of_ok hrun).1 (reads_expectName hc)
      have hlength := hs'.length
      simp only [List.length_singleton] at hlength
      refine (parallel_skipIf _ c₁ d₁ hc₁ hd₁).bind hd₁ fun _ sep c₂ d₂ _ hs₂ hd₂ hlen₂ => ?_
      have hc₂ := hs₂.closed hc₁
      have := hs.length
      have := hs₂.length
      refine (ih n hc₂ hd₂ (by omega) (by omega)).bind hd₂
        fun params ts' c₃ d₃ _ hs₃ hd₃ _ => ?_
      exact parallel_pure _ c₃ d₃ (hs₃.closed hc₂) hd₃

theorem parameters_parallel {f g : List Tree → Parse α}
    (h : ∀ params, Parallel (f params) (g params)) :
    Parallel (remaining >>= fun n => parameters (n + 1) >>= f)
      (remaining >>= fun n => parameters (n + 1) >>= g) := by
  intro c d hc hd
  refine repeats_remaining ?_
  exact (parameters_repeats _ _ hc hd (Nat.le_refl _) (Nat.le_refl _)).bind hd
    fun params ts c₁ d₁ _ hs hd₁ _ => h params c₁ d₁ (hs.closed hc) hd₁

include hst h' in
theorem functionStatement_parallel :
    Parallel (functionStatement st) (functionStatement st') := by
  unfold functionStatement
  refine parallel_advance.discard.bind fun _ => ?_
  refine (parallel_expectName _).bind fun name => ?_
  refine (parallel_expect _ _).discard.bind fun _ => parameters_parallel fun params => ?_
  refine (parallel_expect _ _).discard.bind fun _ => ?_
  exact (body_parallel hst h' _).bind fun _ => parallel_pure _

variable (hp : Parses p .primary) (h : Parallel p q)
include hp h

theorem boxStatement_parallel : Parallel (boxStatement p) (boxStatement q) := by
  unfold boxStatement
  refine parallel_advance.discard.bind fun _ => ?_
  refine (parallel_expectName _).bind fun name => parallel_kind fun k => ?_
  have hend : ∀ t : Tree, Parallel
      (discard (expect .endKw .boxEnd) >>= fun _ => pure
        (Tree.variableDeclaration (.text name) t (.bool false) (.bool false)))
      (discard (expect .endKw .boxEnd) >>= fun _ => pure
        (.variableDeclaration (.text name) t (.bool false) (.bool false))) := fun t =>
    (parallel_expect _ _).discard.bind fun _ => parallel_pure _
  split
  · exact hend .null
  · refine (parallel_expect _ _).discard.bind fun _ => ?_
    exact (expression_parallel hp h).bind hend

theorem noChangeStatement_parallel : Parallel (noChangeStatement p) (noChangeStatement q) := by
  unfold noChangeStatement
  refine parallel_advance.discard.bind fun _ => ?_
  refine (parallel_expectName _).bind fun name => ?_
  refine (parallel_expect _ _).discard.bind fun _ => ?_
  refine (expression_parallel hp h).bind fun t => ?_
  exact (parallel_expect _ _).discard.bind fun _ => parallel_pure _

theorem boxesStatement_parallel : Parallel (boxesStatement p) (boxesStatement q) := by
  unfold boxesStatement
  refine parallel_advance.discard.bind fun _ => ?_
  refine (parallel_expectName _).bind fun name => ?_
  refine (parallel_expect _ _).discard.bind fun _ => ?_
  refine (arrayLiteral_parallel hp h).bind fun t => ?_
  exact (parallel_expect _ _).discard.bind fun _ => parallel_pure _

theorem returnStatement_parallel : Parallel (returnStatement p) (returnStatement q) := by
  unfold returnStatement
  refine parallel_advance.discard.bind fun _ => parallel_kind fun k => ?_
  have hend : ∀ t : Tree, Parallel
      (discard (expect .endKw .returnEnd) >>= fun _ => pure (Tree.returnStatement t))
      (discard (expect .endKw .returnEnd) >>= fun _ => pure (.returnStatement t)) := fun t =>
    (parallel_expect _ _).discard.bind fun _ => parallel_pure _
  split
  · exact hend .null
  · exact (expression_parallel hp h).bind hend

theorem nameStatement_parallel : Parallel (nameStatement p) (nameStatement q) := by
  unfold nameStatement
  refine parallel_advance.bind fun name => ?_
  refine (named_parallel hp h name.text).bind fun target => parallel_kind fun k => ?_
  split
  · split
    · refine parallel_advance.discard.bind fun _ => ?_
      refine (expression_parallel hp h).bind fun value => ?_
      exact (parallel_expect _ _).discard.bind fun _ => parallel_pure _
    · exact parallel_refuse _
  · split
    · exact parallel_pure _
    · exact parallel_refuse _

theorem test_parallel (negated : Kind) : Parallel (test p negated) (test q negated) := by
  unfold test
  refine parallel_advance.bind fun keyword => ?_
  exact (condition_parallel hp h).bind fun inner => parallel_pure _

include hst h'

theorem ifStatement_parallel : Parallel (ifStatement p st) (ifStatement q st') := by
  unfold ifStatement
  refine (test_parallel hp h _).bind fun test => ?_
  refine (parallel_expect _ _).discard.bind fun _ => ?_
  refine (body_parallel hst h' _).bind fun r => ?_
  obtain ⟨consequent, closing⟩ := r
  simp only
  split
  · refine (parallel_skipIf _).bind fun _ => ?_
    exact (body_parallel hst h' _).bind fun _ => parallel_pure _
  · exact parallel_pure _

theorem whileStatement_parallel : Parallel (whileStatement p st) (whileStatement q st') := by
  unfold whileStatement
  refine (test_parallel hp h _).bind fun test => ?_
  refine (parallel_expect _ _).discard.bind fun _ => ?_
  exact (body_parallel hst h' _).bind fun _ => parallel_pure _

theorem forStatement_parallel : Parallel (forStatement p st) (forStatement q st') := by
  unfold forStatement
  refine parallel_advance.discard.bind fun _ => ?_
  refine (parallel_expectName _).bind fun name => ?_
  refine (parallel_expect _ _).discard.bind fun _ => ?_
  refine (expression_parallel hp h).bind fun start => ?_
  refine (parallel_expect _ _).discard.bind fun _ => ?_
  refine (expression_parallel hp h).bind fun stop => ?_
  refine (parallel_expect _ _).discard.bind fun _ => ?_
  exact (body_parallel hst h' _).bind fun _ => parallel_pure _

theorem statementStep_parallel : Parallel (statementStep p st) (statementStep q st') := by
  unfold statementStep
  refine parallel_kind fun k => ?_
  split
  · exact boxStatement_parallel hp h
  · exact noChangeStatement_parallel hp h
  · exact boxesStatement_parallel hp h
  · exact ifStatement_parallel hst h' hp h
  · exact ifStatement_parallel hst h' hp h
  · exact whileStatement_parallel hst h' hp h
  · exact whileStatement_parallel hst h' hp h
  · exact forStatement_parallel hst h' hp h
  · exact functionStatement_parallel hst h'
  · exact returnStatement_parallel hp h
  · exact nameStatement_parallel hp h
  · refine parallel_peek fun tok => ?_
    split
    · exact nameStatement_parallel hp h
    · exact parallel_refuse _

end

theorem statement_parallel : ∀ {depth depth' : Nat}, depth ≤ depth' →
    Parallel (statement depth) (statement depth')
  | 0, _, _ => fun _ _ _ _ => repeats_tooDeep
  | depth + 1, _ + 1, h =>
    have h := Nat.le_of_succ_le_succ h
    statementStep_parallel (statement_parses depth) (statement_parallel h) (primary_parses depth)
      (primary_parallel h)

/-- **Nothing is looked at beyond the token at which parsing ends.**  A token list that begins
    with the same tokens is parsed with the same result up to there, by any limit on nesting that
    is not smaller. -/
theorem program_parallel {depth depth' : Nat} (h : depth ≤ depth') :
    Parallel (program depth) (program depth') := by
  intro c d hc hd
  unfold program
  refine repeats_remaining ?_
  refine (statements_repeats (statement_parses depth) (statement_parallel h) _ _ hc hd
    (Nat.le_refl _) (Nat.le_refl _)).bind hd fun items ts c₁ d₁ _ hs hd₁ _ => ?_
  exact parallel_pure _ c₁ d₁ (hs.closed hc) hd₁

end Grammar

end BoxScript
