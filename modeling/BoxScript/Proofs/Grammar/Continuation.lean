/-
  What parsers have used when they refuse a token.

  * `Completable form ts`: the tokens `ts` can be continued to some that are derived;
  * `Viable x c B`: if the parser `x` refuses a token, the tokens that it has used since `c`
    satisfy `B`.

  For each parser, the used tokens can be continued to what it parses: there is a lemma for each
  of them, with a completion for each place where it can stop.  With the fact that nothing beyond
  the refused token was looked at, this gives `parseTokens_error_earliest`.
-/
import BoxScript.Proofs.Grammar.Context
import BoxScript.Proofs.Grammar.Lookahead

namespace BoxScript

theorem Cursor.Spans.ne_endOfInput {c c' : Cursor} {ts : List Token} (h : c.Spans ts c')
    (hne : ts ≠ []) : c.current.kind ≠ .endOfInput := by
  cases ts with
  | nil => exact absurd rfl hne
  | cons tok ts => rw [h.cons.1]; exact h.cons.2.1

namespace Grammar

open Parse

variable {α β : Type} {form : Form} {ts us : List Token} {next : Kind} {t : Tree}

/-- The tokens can be continued to some from which the form is derived. -/
def Completable (form : Form) (ts : List Token) : Prop :=
  ∃ more next t, Derives form (ts ++ more) next t

/-- What comes after the continuation can be chosen. -/
theorem Completable.before (h : Completable form ts) (next : Kind) (hn : form.Precedes next) :
    ∃ more t, Derives form (ts ++ more) next t := by
  obtain ⟨more, next', t, ht⟩ := h
  exact ⟨more, t, ht.before hn⟩

/-- What is left of some derived tokens completes those before. -/
theorem Derives.completes (more : List Token) (h : Derives form us .endKw t)
    (he : us = ts ++ more) : Completable form ts := ⟨more, .endKw, t, he ▸ h⟩

theorem bare_isName : (bare .identifier "x").IsName := Or.inl rfl

theorem completable_primary_nil : Completable .primary [] :=
  Derives.completes _ (.string (bare_kind .string "")) rfl

theorem Completable.chain {k : Chain} (h : Completable k.operand ts) :
    Completable (.chain k) ts := by
  have hstop := stops_of_mem (k := .endKw) (by simp)
  obtain ⟨more, t, ht⟩ := h.before .endKw (Chain.operand_precedes k hstop)
  exact Derives.completes more (.chain (.first ht) (Chain.joins_eq_false hstop k)) rfl

theorem completable_expression_nil : Completable (.chain .expression) [] :=
  Completable.chain (k := .expression) completable_primary_nil

theorem Derives.target_or_call (h : Derives .named ts next t) :
    ((∃ x, t = .identifier x) ∨ ∃ a i, t = .arrayAccess a i) ∨
      ∃ f args, t = .callExpression f args := by
  cases h with
  | name => exact Or.inl (Or.inl ⟨_, rfl⟩)
  | index => exact Or.inl (Or.inr ⟨_, _, rfl⟩)
  | call => exact Or.inr ⟨_, _, rfl⟩

/-- Every name with its indices and argument lists begins a statement: a call is one, and all
    else can be assigned to. -/
theorem Completable.statement (h : Completable .named ts) : Completable .statement ts := by
  obtain ⟨more, next, t, ht⟩ := h
  rcases ht.target_or_call with htarget | ⟨f, args, rfl⟩
  · obtain ⟨value, v, hv⟩ := completable_expression_nil.before .endKw (stops_of_mem (by simp))
    exact Derives.completes (more ++ bare .equals "=" :: (value ++ [bare .endKw "end"]))
      (.assign (ht.before trivial) htarget (bare_kind .equals "=") hv (bare_kind .endKw "end"))
      (by simp)
  · exact Derives.completes more
      (.callOnly (ht.before trivial) (by simp [Kind.Opens]) (by simp)) rfl

theorem leading_append (h : us ≠ []) (more : List Token) (k k' : Kind) :
    leading (us ++ more) k = leading us k' := by
  cases us with
  | nil => exact absurd rfl h
  | cons => rfl

/-! ## Refusals -/

/-- If the parser refuses a token, the tokens that it has used before satisfy `B`. -/
def Viable (x : Parse α) (c : Cursor) (B : List Token → Prop) : Prop :=
  Ends x c (fun _ _ => True) fun e c' => ∀ complaint tok, e = .unexpected complaint tok →
    ∃ ts, c.Spans ts c' ∧ B ts

section Viable

variable {c : Cursor} {B : List Token → Prop}

theorem Viable.imp {x : Parse α} {B' : List Token → Prop} (h : Viable x c B)
    (hB : ∀ ts c', c.Spans ts c' → B ts → B' ts) : Viable x c B' :=
  Ends.imp h (fun _ _ h => h) fun e c' h complaint tok he => by
    obtain ⟨ts, hs, hts⟩ := h complaint tok he
    exact ⟨ts, hs, hB ts c' hs hts⟩

theorem Viable.bind {x : Parse α} {f : α → Parse β} {R : List Token → Kind → α → Prop}
    (hx : Reads x c R) (hv : Viable x c B)
    (hf : ∀ a ts c₁, c.Spans ts c₁ → R ts c₁.current.kind a →
      Viable (f a) c₁ fun ts' => B (ts ++ ts')) : Viable (x >>= f) c B := by
  unfold Viable Reads at *
  rw [ends_bind]
  cases hrun : x c with
  | error e c₁ =>
    rw [ends_of_error hrun] at hv ⊢
    exact hv
  | ok a c₁ =>
    rw [ends_of_ok hrun] at hx ⊢
    obtain ⟨ts, hs, ha⟩ := hx
    refine Ends.imp (hf a ts c₁ hs ha) (fun _ _ h => h) fun e c₂ h complaint tok he => ?_
    obtain ⟨ts', hs', hB⟩ := h complaint tok he
    exact ⟨ts ++ ts', hs.trans hs', hB⟩

theorem viable_pure {a : α} : Viable (pure a) c B := trivial

theorem Viable.bind_pure {x : Parse α} {f : α → β} (h : Viable x c B) :
    Viable (x >>= fun a => pure (f a)) c B := by
  unfold Viable
  rw [ends_bind]
  exact Ends.imp h (fun _ _ _ => trivial) fun _ _ h => h

theorem viable_tooDeep : Viable (throw .tooDeep : Parse α) c B := fun _ _ he => by cases he

theorem viable_refuse {complaint : Complaint} (h : B []) :
    Viable (refuse complaint : Parse α) c B := fun _ _ _ => ⟨[], .refl c, h⟩

theorem viable_get {f : Cursor → Parse α} (h : Viable (f c) c B) : Viable (get >>= f) c B := h

theorem viable_kind {f : Kind → Parse α} (h : Viable (f c.current.kind) c B) :
    Viable (kind >>= f) c B := h

theorem viable_peek {f : Token → Parse α} (h : Viable (f c.current) c B) :
    Viable (peek >>= f) c B := h

theorem viable_remaining {f : Nat → Parse α} (h : Viable (f c.later.length) c B) :
    Viable (remaining >>= f) c B := h

theorem viable_advance_bind {f : Token → Parse α} (hc : c.Closed)
    (hk : c.current.kind ≠ .endOfInput)
    (h : c.Spans [c.current] c.next →
      Viable (f c.current) c.next fun ts => B (c.current :: ts)) :
    Viable (advance >>= f) c B := by
  have hs := hc.spans hk
  refine Ends.imp (h hs) (fun _ _ h => h) fun e c' h complaint tok he => ?_
  obtain ⟨ts, hs', hB⟩ := h complaint tok he
  exact ⟨c.current :: ts, hs.trans hs', hB⟩

theorem viable_drop {f : PUnit → Parse α} (hc : c.Closed) (hk : c.current.kind ≠ .endOfInput)
    (h : c.Spans [c.current] c.next → Viable (f ⟨⟩) c.next fun ts => B (c.current :: ts)) :
    Viable (discard advance >>= f) c B := viable_advance_bind (f := fun _ => f ⟨⟩) hc hk h

theorem Viable.discard_bind {x : Parse α} {f : PUnit → Parse β}
    (h : Viable (x >>= fun _ => f ⟨⟩) c B) : Viable (discard x >>= f) c B := by
  unfold Viable at h ⊢
  rw [ends_bind] at h ⊢
  exact ends_discard.2 h

theorem viable_expect {k : Kind} {what : Expectation} (h : B []) : Viable (expect k what) c B := by
  unfold expect
  refine viable_kind ?_
  split
  · trivial
  · exact viable_refuse h

/-- A token of a kind is wanted: either it is not there, or it is taken. -/
theorem viable_take {k : Kind} {what : Expectation} {f : PUnit → Parse α} (hc : c.Closed)
    (hk : k ≠ .endOfInput) (hB : B [])
    (h : c.current.kind = k → c.Spans [c.current] c.next →
      Viable (f ⟨⟩) c.next fun ts => B (c.current :: ts)) :
    Viable (discard (expect k what) >>= f) c B := by
  refine (Viable.bind (reads_expect hc hk) (viable_expect hB)
    fun tok ts c₁ hs ⟨hts, hkind, htok⟩ => ?_).discard_bind
  subst hts htok
  obtain rfl : c.next = c₁ := Cursor.eq_of_spans_nil hs.cons.2.2
  exact h hkind hs

theorem viable_skipIf {k : Kind} : Viable (skipIf k) c B := by
  unfold skipIf
  refine viable_kind ?_
  split <;> trivial

theorem viable_name {what : Expectation} {f : String → Parse α} (hc : c.Closed) (hB : B [])
    (h : ∀ tok c₁, tok.IsName → c.Spans [tok] c₁ →
      Viable (f tok.text) c₁ fun ts => B (tok :: ts)) :
    Viable (expectName what >>= f) c B := by
  have hv : Viable (expectName what) c B := by
    unfold expectName
    refine viable_peek ?_
    split
    · trivial
    · exact (viable_expect hB).bind (reads_expect hc (by simp)) fun _ _ _ _ _ => viable_pure
  refine hv.bind (reads_expectName hc) fun name ts c₁ hs ⟨tok, hts, hn, hname⟩ => ?_
  subst hts hname
  exact h tok c₁ hn hs

end Viable

/-! ## Chains -/

/-- Whatever token the parser refuses, what it has used can be continued to the form. -/
def Completes (x : Parse Tree) (form : Form) : Prop :=
  ∀ c : Cursor, c.Closed → Viable x c (Completable form)

variable {p : Parse Tree} {c : Cursor}

theorem chainRest_viable {k : Chain} (hp : Parses p k.operand) (hv : Completes p k.operand) :
    ∀ (rounds : Nat) {c : Cursor} {ts : List Token} {left : Tree}, c.Closed →
      Derives (.links k) ts c.current.kind left →
      Viable (chainRest p k.joins k.join rounds left) c fun us =>
        Completable (.chain k) (ts ++ us) := by
  intro rounds
  induction rounds with
  | zero => exact fun _ _ => viable_pure
  | succ rounds ih =>
    intro c ts left hc hleft
    unfold chainRest
    refine viable_kind ?_
    split
    · next hj =>
      refine viable_advance_bind hc (ne_endOfInput_of_joins hj) fun hs => ?_
      have hc₁ := hs.closed hc
      refine Viable.bind (hp _ hc₁) ((hv _ hc₁).imp fun us _ _ hus => ?_)
        fun right us c₂ hs₂ hright => ?_
      · have hstop := stops_of_mem (k := .endKw) (by simp)
        obtain ⟨more, right, hright⟩ := hus.before .endKw (Chain.operand_precedes k hstop)
        exact Derives.completes more
          (.chain (.joined hleft hj hright) (Chain.joins_eq_false hstop k)) (by simp)
      · refine (ih (hs₂.closed hc₁) (.joined hleft hj hright)).imp fun us' _ _ h => ?_
        simpa using h
    · exact viable_pure

theorem chain_completes {k : Chain} (hp : Parses p k.operand) (hv : Completes p k.operand) :
    Completes (chain p k.joins k.join) (.chain k) := by
  intro c hc
  unfold chain
  refine Viable.bind (hp c hc) ((hv c hc).imp fun _ _ _ h => h.chain)
    fun first ts c₁ hs hfirst => viable_remaining ?_
  exact chainRest_viable hp hv _ (hs.closed hc) (.first hfirst)

section
variable (hp : Parses p .primary) (hv : Completes p .primary)
include hp hv

theorem expression_completes : Completes (expression p) (.chain .expression) :=
  chain_completes (k := .expression) hp hv

theorem condition_completes : Completes (condition p) (.chain .condition) :=
  chain_completes (k := .condition) (chain_parses (k := .comparison) hp)
    (chain_completes (k := .comparison) hp hv)

theorem group_viable (hc : c.Closed) (hk : c.current.kind = .beginParams) :
    Viable (group p) c (Completable .primary) := by
  unfold group
  refine viable_drop hc (by simp [hk]) fun hs => ?_
  have hc₁ := hs.closed hc
  have hclose := bare_kind .endParams ")"
  have hinner : Parses (Grammar.chain (expression p) Kind.isLogical .logicalExpression)
      (.chain .grouped) := chain_parses (k := .grouped) (expression_parses hp)
  refine Viable.bind (hinner _ hc₁) ((chain_completes (k := .grouped) (expression_parses hp)
    (expression_completes hp hv) _ hc₁).imp fun us _ _ hus => ?_) fun t us c₂ hs₂ ht => ?_
  · obtain ⟨more, t, ht⟩ := hus.before .endParams (stops_of_mem (by simp))
    exact Derives.completes (more ++ [bare .endParams ")"]) (.group hk ht hclose) (by simp)
  · refine viable_take (hs₂.closed hc₁) (by simp) ?_ fun _ _ => viable_pure
    exact Derives.completes [bare .endParams ")"]
      (.group hk (ht.before (stops_of_mem (by simp))) hclose) (by simp)

/-! ## Lists in brackets -/

omit hp hv in
theorem skipSeparator_viable {B : List Token → Prop} : Viable skipSeparator c B := by
  unfold skipSeparator
  refine viable_kind ?_
  split <;> trivial

omit hp hv in
/-- An expression before a list is one before what the list is continued to. -/
theorem Derives.before_append {list : List Token} {k : Kind} (more : List Token)
    (h : Derives (.chain .expression) ts (leading list k) t)
    (hmore : list = [] → (leading more .endKw).Stops) :
    Derives (.chain .expression) ts (leading (list ++ more) .endKw) t := by
  cases list with
  | nil => exact h.before (hmore rfl)
  | cons => exact h

omit hp hv in
theorem Derives.elements_list (h : Derives .elements ts next t) : ∃ items, t = .list items := by
  cases h <;> exact ⟨_, rfl⟩

omit hp hv in
/-- An element before the rest of an array.  If nothing of the rest is there, the array can be
    closed. -/
theorem Completable.element {sep : List Token} {k : Kind}
    (ht : Derives (.chain .expression) ts (leading (sep ++ us) k) t)
    (hclose : Separator .closeArray sep) (hsep : us ≠ [] → Separator (leading us k) sep)
    (h : Completable .elements us) : Completable .elements (ts ++ (sep ++ us)) := by
  cases us with
  | nil =>
    have hvalue := ht.before_append [bare .closeArray "]"]
      fun _ => stops_of_mem (k := .closeArray) (by simp)
    rw [List.append_nil] at hvalue
    exact Derives.completes [bare .closeArray "]"]
      (.element hvalue hclose (.noElement (bare_kind .closeArray "]"))) (by simp)
  | cons u us =>
    obtain ⟨more, items, hitems⟩ := h.before .endKw trivial
    obtain ⟨items, rfl⟩ := hitems.elements_list
    have hvalue := ht.before_append more (by simp)
    rw [List.append_assoc] at hvalue
    exact Derives.completes more (.element hvalue (hsep (by simp)) hitems) (by simp)

theorem elements_viable : ∀ (rounds : Nat) {c : Cursor}, c.Closed →
    Viable (elements p rounds) c (Completable .elements) := by
  have hclose := bare_kind .closeArray "]"
  intro rounds
  induction rounds with
  | zero => exact fun _ => viable_pure
  | succ rounds ih =>
    intro c hc
    unfold elements
    refine viable_kind ?_
    split
    · next hk => exact viable_drop hc (by simp [hk]) fun _ => viable_pure
    · exact viable_refuse (Derives.completes _ (.noElement hclose) rfl)
    · refine Viable.bind (expression_parses hp c hc)
        ((expression_completes hp hv c hc).imp fun us _ _ hus => ?_) fun t ts c₁ hs ht => ?_
      · obtain ⟨more, t, ht⟩ := hus.before .closeArray (stops_of_mem (by simp))
        exact Derives.completes (more ++ [bare .closeArray "]"])
          (.element ht (.absent (Or.inl rfl)) (.noElement hclose)) (by simp)
      · have hc₁ := hs.closed hc
        refine Viable.bind (skipSeparator_reads hc₁) skipSeparator_viable
          fun _ sep c₂ hs₂ ⟨hsep, hsep'⟩ => Viable.bind_pure ?_
        refine (ih (hs₂.closed hc₁)).imp fun us c₃ hs₃ hus => ?_
        rw [← (hs₂.trans hs₃).leading] at ht
        refine Completable.element ht hsep (fun hne => ?_) hus
        rw [hs₃.leading]
        exact hsep' (hs₃.ne_endOfInput hne)

theorem arrayLiteral_completes : Completes (arrayLiteral p) .array := by
  intro c hc
  have hopen := bare_kind .openArray "["
  unfold arrayLiteral
  refine viable_take hc (by simp) ?_ fun hk hs => viable_remaining (Viable.bind_pure ?_)
  · exact Derives.completes _ (.array hopen (.noElement (bare_kind .closeArray "]"))) rfl
  · refine (elements_viable hp hv _ (hs.closed hc)).imp fun us _ _ hus => ?_
    obtain ⟨more, items, hitems⟩ := hus.before .endKw trivial
    obtain ⟨items, rfl⟩ := hitems.elements_list
    exact Derives.completes more (.array hk hitems) rfl

omit hp hv in
theorem Derives.arguments_list (h : Derives .arguments ts next t) : ∃ args, t = .list args := by
  cases h <;> exact ⟨_, rfl⟩

omit hp hv in
/-- An argument before the rest of the arguments.  If nothing of the rest is there, the call can
    be closed. -/
theorem Completable.argument {sep : List Token} {k : Kind}
    (ht : Derives (.chain .expression) ts (leading (sep ++ us) k) t)
    (hsep : Optional .comma sep) (h : Completable .arguments us) :
    Completable .arguments (ts ++ (sep ++ us)) := by
  cases us with
  | nil =>
    have hvalue := ht.before_append [bare .endParams ")"]
      fun _ => stops_of_mem (k := .endParams) (by simp)
    rw [List.append_nil] at hvalue
    exact Derives.completes [bare .endParams ")"]
      (.argument hvalue hsep (.noArgument (bare_kind .endParams ")"))) (by simp)
  | cons u us =>
    obtain ⟨more, args, hargs⟩ := h.before .endKw trivial
    obtain ⟨args, rfl⟩ := hargs.arguments_list
    have hvalue := ht.before_append more (by simp)
    rw [List.append_assoc] at hvalue
    exact Derives.completes more (.argument hvalue hsep hargs) (by simp)

theorem arguments_viable : ∀ (rounds : Nat) {c : Cursor}, c.Closed →
    Viable (arguments p rounds) c (Completable .arguments) := by
  have hclose := bare_kind .endParams ")"
  intro rounds
  induction rounds with
  | zero => exact fun _ => viable_pure
  | succ rounds ih =>
    intro c hc
    unfold arguments
    refine viable_kind ?_
    split
    · next hk => exact viable_drop hc (by simp [hk]) fun _ => viable_pure
    · exact viable_refuse (Derives.completes _ (.noArgument hclose) rfl)
    · refine Viable.bind (expression_parses hp c hc)
        ((expression_completes hp hv c hc).imp fun us _ _ hus => ?_) fun t ts c₁ hs ht => ?_
      · obtain ⟨more, t, ht⟩ := hus.before .endParams (stops_of_mem (by simp))
        exact Derives.completes (more ++ [bare .endParams ")"])
          (.argument ht .absent (.noArgument hclose)) (by simp)
      · have hc₁ := hs.closed hc
        refine Viable.bind (reads_skipIf hc₁ (by simp)) viable_skipIf
          fun _ sep c₂ hs₂ hsep => Viable.bind_pure ?_
        refine (ih (hs₂.closed hc₁)).imp fun us c₃ hs₃ hus => ?_
        rw [← (hs₂.trans hs₃).leading] at ht
        exact Completable.argument ht hsep hus

/-! ## Names -/

/-- The further indices and argument lists of a name.  The parser stops in the middle of one. -/
theorem suffixes_viable : ∀ (rounds : Nat) {c : Cursor} {ts : List Token} {base : Tree},
    c.Closed → Derives .named ts c.current.kind base →
    Viable (suffixes p rounds base) c fun us => us ≠ [] ∧ Completable .named (ts ++ us) := by
  intro rounds
  induction rounds with
  | zero => exact fun _ _ => viable_pure
  | succ rounds ih =>
    intro c ts base hc hbase
    unfold suffixes
    refine viable_kind ?_
    split
    · next hk =>
      have hclose := bare_kind .closeArray "]"
      rw [hk] at hbase
      refine viable_drop hc (by simp [hk]) fun hs => ?_
      have hc₁ := hs.closed hc
      refine Viable.bind (expression_parses hp _ hc₁)
        ((expression_completes hp hv _ hc₁).imp fun us _ _ hus => ⟨by simp, ?_⟩)
        fun t us c₂ hs₂ ht => ?_
      · obtain ⟨more, t, ht⟩ := hus.before .closeArray (stops_of_mem (by simp))
        exact Derives.completes (more ++ [bare .closeArray "]"]) (.index hbase hk ht hclose)
          (by simp)
      · have hc₂ := hs₂.closed hc₁
        refine viable_take hc₂ (by simp) ⟨by simp, ?_⟩ fun hk₂ hs₃ => ?_
        · exact Derives.completes [bare .closeArray "]"]
            (.index hbase hk (ht.before (stops_of_mem (by simp))) hclose) (by simp)
        · refine (ih (hs₃.closed hc₂) (.index hbase hk (hk₂ ▸ ht) hk₂)).imp
            fun us' _ _ h => ⟨by simp, ?_⟩
          simpa using h.2
    · next hk =>
      rw [hk] at hbase
      refine viable_drop hc (by simp [hk]) fun hs => viable_remaining ?_
      have hc₁ := hs.closed hc
      refine Viable.bind (arguments_reads hp _ hc₁ (Nat.lt_succ_self _))
        ((arguments_viable hp hv _ hc₁).imp fun us _ _ hus => ⟨by simp, ?_⟩)
        fun args us c₂ hs₂ hargs => ?_
      · obtain ⟨more, args, hargs⟩ := hus.before .endKw trivial
        obtain ⟨args, rfl⟩ := hargs.arguments_list
        exact Derives.completes more (.call hbase hk hargs) (by simp)
      · refine (ih (hs₂.closed hc₁) (.call hbase hk hargs)).imp fun us' _ _ h => ⟨by simp, ?_⟩
        simpa using h.2
    · exact viable_pure

/-- What follows a name that was just taken. -/
theorem named_viable {name : Token} (hn : name.IsName) (hc : c.Closed) :
    Viable (named p name.text) c fun us => us ≠ [] ∧ Completable .named (name :: us) := by
  unfold named
  exact viable_remaining (suffixes_viable hp hv _ hc (.name hn))

/-! ## Primaries -/

theorem primaryStep_completes : Completes (primaryStep p) .primary := by
  intro c hc
  unfold primaryStep
  refine viable_get ?_
  split
  · next hat =>
    obtain ⟨hn, hm⟩ := atName_iff.1 hat
    refine viable_advance_bind hc hn.ne_endOfInput fun hs => ?_
    refine (named_viable hp hv hn (hs.closed hc)).imp fun us c' hs' ⟨hne, hus⟩ => ?_
    obtain ⟨more, t, ht⟩ := hus.before .endKw trivial
    refine Derives.completes more (.named ht (by simp [Kind.Opens]) fun hk => ?_) rfl
    -- the token after the name was looked at, and it was used
    show leading (us ++ more) .endKw = .beginParams
    rw [leading_append hne, hs'.leading]
    exact hs.cons_lookahead.symm.trans (hm hk)
  · next hat =>
    refine viable_kind ?_
    split
    · next hk =>
      refine viable_advance_bind hc (by simp [hk]) fun _ => ?_
      split
      · exact viable_pure
      · exact fun _ _ he => by cases he
    · next hk => exact viable_advance_bind hc (by simp [hk]) fun _ => viable_pure
    · next hk => exact viable_advance_bind hc (by simp [hk]) fun _ => viable_pure
    · refine (arrayLiteral_completes hp hv c hc).imp fun us _ _ hus => ?_
      obtain ⟨more, t, ht⟩ := hus.before .endKw trivial
      exact Derives.completes more (.literal ht) rfl
    · next hk => exact group_viable hp hv hc hk
    · next hk =>
      refine viable_advance_bind hc (by simp [hk]) fun hs => Viable.bind_pure ?_
      refine (hv _ (hs.closed hc)).imp fun us c' hs' hus => ?_
      cases us with
      | nil =>
        refine Derives.completes [bare .string ""]
          (.negative hk (fun _ => ?_) (.string (bare_kind .string ""))) rfl
        simp [leading, bare_kind]
      | cons u us =>
        obtain ⟨more, t, ht⟩ := hus.before .endKw (stops_of_mem (by simp))
        refine Derives.completes more (.negative hk (fun hw hb => ?_) ht) rfl
        refine hat (atName_iff.2 ⟨Or.inr hw, fun _ => ?_⟩)
        rw [leading_append (by simp), hs'.leading] at hb
        exact hs.cons_lookahead.trans hb
    · next hk =>
      refine viable_drop hc (by simp [hk]) fun hs => Viable.bind_pure ?_
      refine (hv _ (hs.closed hc)).imp fun us _ _ hus => ?_
      obtain ⟨more, t, ht⟩ := hus.before .endKw (stops_of_mem (by simp))
      exact Derives.completes more (.not hk ht) rfl
    · exact viable_refuse completable_primary_nil

end

theorem primary_completes : ∀ depth, Completes (primary depth) .primary
  | 0 => fun _ _ => viable_tooDeep
  | depth + 1 => primaryStep_completes (primary_parses depth) (primary_completes depth)

/-! ## Bodies -/

variable {st : Parse Tree}

theorem Derives.body_list (h : Derives .body ts next t) : ∃ items, t = .list items := by
  cases h <;> exact ⟨_, rfl⟩

/-- What continues a body also continues it up to the token that closes it. -/
theorem Completable.body (h : Completable .body ts) (next : Kind) (hn : next.Stops) :
    ∃ more items, Derives .body (ts ++ more) next (.list items) := by
  obtain ⟨more, t, ht⟩ := h.before next hn
  obtain ⟨items, rfl⟩ := ht.body_list
  exact ⟨more, items, ht⟩

/-- A statement before the rest of a body. -/
theorem Completable.more {k : Kind} (ht : Derives .statement ts (leading us k) t)
    (h : Completable .body us) : Completable .body (ts ++ us) := by
  cases us with
  | nil =>
    exact Derives.completes [] (.more (ht.before (stops_of_mem (by simp [leading]))) .empty)
      (by simp)
  | cons u us =>
    obtain ⟨more, items, hitems⟩ := h.body .endKw (stops_of_mem (by simp))
    exact Derives.completes more (.more ht hitems) (by simp)

section
variable (hst : Parses st .statement) (hv' : Completes st .statement)
include hst hv'

theorem statements_viable {closes : Kind → Bool} : ∀ (rounds : Nat) {c : Cursor}, c.Closed →
    Viable (statements st closes rounds) c (Completable .body) := by
  intro rounds
  induction rounds with
  | zero => exact fun _ => viable_pure
  | succ rounds ih =>
    intro c hc
    unfold statements
    refine viable_kind ?_
    split
    · exact viable_pure
    · split
      · exact viable_refuse (Derives.completes [] .empty rfl)
      · refine Viable.bind (hst c hc) ((hv' c hc).imp fun us _ _ hus => ?_)
          fun t ts c₁ hs ht => Viable.bind_pure ?_
        · obtain ⟨more, t, ht⟩ := hus.before .endKw (stops_of_mem (by simp))
          exact Derives.completes more (.more ht .empty) (by simp)
        · refine (ih (hs.closed hc)).imp fun us c₂ hs₂ hus => ?_
          rw [← hs₂.leading] at ht
          exact Completable.more ht hus

theorem body_viable {closes : Kind → Bool} (hc : c.Closed) :
    Viable (body st closes) c (Completable .body) := by
  unfold body
  refine viable_remaining ?_
  refine Viable.bind (statements_reads hst _ hc (Nat.lt_succ_self _))
    (statements_viable hst hv' _ hc) fun items ts c₁ hs ⟨_, hk⟩ => ?_
  exact Viable.bind_pure trivial

end

/-! ## Statements -/

/-- A form with the token that has to come after it. -/
theorem viable_before {x : Parse Tree} {f : Tree → Parse α} {B : List Token → Prop} {k : Kind}
    {what : Expectation} (hx : Parses x form) (hv : Completes x form) (hc : c.Closed)
    (hk : form.Precedes k) (hne : k ≠ .endOfInput)
    (hB : ∀ us more t, Derives form (us ++ more) k t → B us)
    (hf : ∀ t ts stop c₂, Derives form ts k t → stop.kind = k → c₂.Closed →
      Viable (f t) c₂ fun us => B (ts ++ stop :: us)) :
    Viable (x >>= fun t => discard (expect k what) >>= fun _ => f t) c B := by
  refine Viable.bind (hx c hc) ((hv c hc).imp fun us _ _ hus => ?_) fun t ts c₁ hs ht => ?_
  · obtain ⟨more, t, ht⟩ := hus.before k hk
    exact hB us more t ht
  · have ht' := ht.before hk
    refine viable_take (hs.closed hc) hne ?_ fun hstop hs₂ => ?_
    · rw [List.append_nil]
      exact hB ts [] t (by rwa [List.append_nil])
    · exact hf t ts _ _ ht' hstop (hs₂.closed (hs.closed hc))

section
variable (hp : Parses p .primary) (hv : Completes p .primary)
include hp hv

theorem boxStatement_viable (hc : c.Closed) (hk : c.current.kind = .boxKw) :
    Viable (boxStatement p) c (Completable .statement) := by
  have hend := bare_kind .endKw "end"
  unfold boxStatement
  refine viable_drop hc (by simp [hk]) fun hs => ?_
  have hc₁ := hs.closed hc
  refine viable_name hc₁ ?_ fun name c₂ hn hs₂ => viable_kind ?_
  · exact Derives.completes _ (.box hk bare_isName hend) rfl
  have hc₂ := hs₂.closed hc₁
  have hbox : Completable .statement [c.current, name] :=
    Derives.completes [bare .endKw "end"] (.box hk hn hend) rfl
  split
  · exact viable_take hc₂ (by simp) hbox fun _ _ => viable_pure
  · refine viable_take hc₂ (by simp) hbox fun he hs₃ => ?_
    refine viable_before (expression_parses hp) (expression_completes hp hv) (hs₃.closed hc₂)
      (stops_of_mem (by simp)) (by simp) (fun us more t ht => ?_) fun _ _ _ _ _ _ _ => viable_pure
    exact Derives.completes (more ++ [bare .endKw "end"]) (.boxSet hk hn he ht hend) (by simp)

theorem noChangeStatement_viable (hc : c.Closed) (hk : c.current.kind = .noChangeKw) :
    Viable (noChangeStatement p) c (Completable .statement) := by
  have hend := bare_kind .endKw "end"
  have heq := bare_kind .equals "="
  obtain ⟨value, v, hvalue⟩ := completable_expression_nil.before .endKw (stops_of_mem (by simp))
  unfold noChangeStatement
  refine viable_drop hc (by simp [hk]) fun hs => ?_
  have hc₁ := hs.closed hc
  refine viable_name hc₁ ?_ fun name c₂ hn hs₂ => ?_
  · exact Derives.completes _ (.noChange hk bare_isName heq hvalue hend) rfl
  have hc₂ := hs₂.closed hc₁
  refine viable_take hc₂ (by simp) ?_ fun he hs₃ => ?_
  · exact Derives.completes _ (.noChange hk hn heq hvalue hend) rfl
  refine viable_before (expression_parses hp) (expression_completes hp hv) (hs₃.closed hc₂)
    (stops_of_mem (by simp)) (by simp) (fun us more t ht => ?_) fun _ _ _ _ _ _ _ => viable_pure
  exact Derives.completes (more ++ [bare .endKw "end"]) (.noChange hk hn he ht hend) (by simp)

theorem boxesStatement_viable (hc : c.Closed) (hk : c.current.kind = .boxesKw) :
    Viable (boxesStatement p) c (Completable .statement) := by
  have hend := bare_kind .endKw "end"
  have heq := bare_kind .equals "="
  have harray : Derives .array [bare .openArray "[", bare .closeArray "]"] .endKw _ :=
    .array rfl (.noElement rfl)
  unfold boxesStatement
  refine viable_drop hc (by simp [hk]) fun hs => ?_
  have hc₁ := hs.closed hc
  refine viable_name hc₁ ?_ fun name c₂ hn hs₂ => ?_
  · exact Derives.completes _ (.boxes hk bare_isName heq harray hend) rfl
  have hc₂ := hs₂.closed hc₁
  refine viable_take hc₂ (by simp) ?_ fun he hs₃ => ?_
  · exact Derives.completes _ (.boxes hk hn heq harray hend) rfl
  refine viable_before (arrayLiteral_parses hp) (arrayLiteral_completes hp hv) (hs₃.closed hc₂)
    trivial (by simp) (fun us more t ht => ?_) fun _ _ _ _ _ _ _ => viable_pure
  exact Derives.completes (more ++ [bare .endKw "end"]) (.boxes hk hn he ht hend) (by simp)

theorem returnStatement_viable (hc : c.Closed) (hk : c.current.kind = .returnKw) :
    Viable (returnStatement p) c (Completable .statement) := by
  have hend := bare_kind .endKw "end"
  unfold returnStatement
  refine viable_drop hc (by simp [hk]) fun hs => viable_kind ?_
  have hc₁ := hs.closed hc
  split
  · refine viable_take hc₁ (by simp) ?_ fun _ _ => viable_pure
    exact Derives.completes _ (.returnNull hk hend) rfl
  · refine viable_before (expression_parses hp) (expression_completes hp hv) hc₁
      (stops_of_mem (by simp)) (by simp) (fun us more t ht => ?_) fun _ _ _ _ _ _ _ => viable_pure
    exact Derives.completes (more ++ [bare .endKw "end"]) (.returnValue hk ht hend) (by simp)

theorem nameStatement_viable (hc : c.Closed) (hn : c.current.IsName) :
    Viable (nameStatement p) c (Completable .statement) := by
  unfold nameStatement
  refine viable_advance_bind hc hn.ne_endOfInput fun hs => ?_
  have hc₁ := hs.closed hc
  refine Viable.bind (named_reads hp hn hc₁)
    ((named_viable hp hv hn hc₁).imp fun us _ _ hus => hus.2.statement)
    fun target ts c₂ hs₂ ⟨htarget, _⟩ => viable_kind ?_
  have hc₂ := hs₂.closed hc₁
  have hstop : Completable .statement (c.current :: (ts ++ [])) := by
    rw [List.append_nil]
    exact Completable.statement (Derives.completes [] (htarget.before trivial) (by simp))
  split
  · next he =>
    split
    · next ht =>
      refine viable_drop hc₂ (by simp [he]) fun hs₃ => ?_
      refine viable_before (expression_parses hp) (expression_completes hp hv) (hs₃.closed hc₂)
        (stops_of_mem (by simp)) (by simp) (fun us more t hvalue => ?_)
        fun _ _ _ _ _ _ _ => viable_pure
      exact Derives.completes (more ++ [bare .endKw "end"])
        (.assign (he ▸ htarget) (target_of_isTarget ht) he hvalue (bare_kind .endKw "end"))
        (by simp)
    · exact viable_refuse hstop
  · split
    · exact viable_pure
    · exact viable_refuse hstop

/-- A condition after its keyword, with the `doIt` that has to come after it. -/
theorem test_viable {negated : Kind} {what : Expectation} {f : Tree → Parse α}
    {B : List Token → Prop} (hc : c.Closed) (hk : c.current.kind ≠ .endOfInput)
    (hB : ∀ us more t, Derives (.chain .condition) (us ++ more) .doItKw t → B (c.current :: us))
    (hf : ∀ t ts doIt c₂, Derives (.chain .condition) ts .doItKw t → doIt.kind = .doItKw →
      c₂.Closed → Viable (f (turned c.current.kind negated t)) c₂
        fun us => B (c.current :: (ts ++ doIt :: us))) :
    Viable (test p negated >>= fun t => discard (expect .doItKw what) >>= fun _ => f t) c B := by
  have htest : Viable (test p negated) c B := by
    unfold test
    refine viable_advance_bind hc hk fun hs => Viable.bind_pure ?_
    refine (condition_completes hp hv _ (hs.closed hc)).imp fun us _ _ hus => ?_
    obtain ⟨more, t, ht⟩ := hus.before .doItKw (stops_of_mem (by simp))
    exact hB us more t ht
  refine Viable.bind (test_reads hp hc hk) htest fun t ts c₁ hs h => ?_
  obtain ⟨ts, inner, rfl, rfl, hinner⟩ := h
  have hinner : Derives (.chain .condition) ts .doItKw inner :=
    hinner.before (stops_of_mem (by simp))
  refine viable_take (hs.closed hc) (by simp) ?_ fun hd hs₂ => ?_
  · rw [List.append_nil]
    exact hB ts [] inner (by rwa [List.append_nil])
  · exact hf inner ts _ _ hinner hd (hs₂.closed (hs.closed hc))

end

theorem Derives.parameters_list (h : Derives .parameters ts next t) :
    ∃ params, t = .list params := by
  cases h <;> exact ⟨_, rfl⟩

theorem parameters_viable : ∀ (rounds : Nat) {c : Cursor}, c.Closed →
    Viable (parameters rounds) c (Completable .parameters) := by
  intro rounds
  induction rounds with
  | zero => exact fun _ => viable_pure
  | succ rounds ih =>
    intro c hc
    unfold parameters
    refine viable_kind ?_
    split
    · next hk => exact viable_drop hc (by simp [hk]) fun _ => viable_pure
    · refine viable_name hc ?_ fun name c₁ hn hs => ?_
      · exact Derives.completes _ (.noParameter (bare_kind .endParams ")")) rfl
      · have hc₁ := hs.closed hc
        refine Viable.bind (reads_skipIf hc₁ (by simp)) viable_skipIf
          fun _ sep c₂ hs₂ hsep => Viable.bind_pure ?_
        refine (ih (hs₂.closed hc₁)).imp fun us _ _ hus => ?_
        obtain ⟨more, params, hparams⟩ := hus.before .endKw trivial
        obtain ⟨params, rfl⟩ := hparams.parameters_list
        exact Derives.completes more (.parameter hn hsep hparams) (by simp)

section
variable (hst : Parses st .statement) (hv' : Completes st .statement)
include hst hv'

/-- A body that only `end` closes, and what is made of it. -/
theorem endBody_viable {f : Tree × Kind → Tree} {B : List Token → Prop} (hc : c.Closed)
    (hB : ∀ us more items, Derives .body (us ++ more) .endKw (.list items) → B us) :
    Viable ((body st fun k => k = .endKw) >>= fun r => pure (f r)) c B := by
  refine Viable.bind_pure ((body_viable hst hv' hc).imp fun us _ _ hus => ?_)
  obtain ⟨more, items, hitems⟩ := hus.body .endKw (stops_of_mem (by simp))
  exact hB us more items hitems

theorem functionStatement_viable (hc : c.Closed) (hk : c.current.kind = .functionKw) :
    Viable (functionStatement st) c (Completable .statement) := by
  have hopen := bare_kind .beginParams "("
  have hdo := bare_kind .doItKw "doIt"
  have hend := bare_kind .endKw "end"
  have hnone : Derives .parameters [bare .endParams ")"] .doItKw (.list []) := .noParameter rfl
  unfold functionStatement
  refine viable_drop hc (by simp [hk]) fun hs => ?_
  have hc₁ := hs.closed hc
  refine viable_name hc₁ ?_ fun name c₂ hn hs₂ => ?_
  · exact Derives.completes _ (.function hk bare_isName hopen hnone hdo .empty hend) rfl
  have hc₂ := hs₂.closed hc₁
  refine viable_take hc₂ (by simp) ?_ fun ho hs₃ => viable_remaining ?_
  · exact Derives.completes _ (.function hk hn hopen hnone hdo .empty hend) rfl
  have hc₃ := hs₃.closed hc₂
  refine Viable.bind (parameters_reads _ hc₃ (Nat.lt_succ_self _))
    ((parameters_viable _ hc₃).imp fun us _ _ hus => ?_) fun params ps c₄ hs₄ hparams => ?_
  · obtain ⟨more, params, hparams⟩ := hus.before .doItKw trivial
    obtain ⟨params, rfl⟩ := hparams.parameters_list
    exact Derives.completes (more ++ [bare .doItKw "doIt", bare .endKw "end"])
      (.function hk hn ho hparams hdo .empty hend) (by simp)
  have hparams : Derives .parameters ps .doItKw (.list params) := hparams.before trivial
  have hc₄ := hs₄.closed hc₃
  refine viable_take hc₄ (by simp) ?_ fun hd hs₅ => ?_
  · exact Derives.completes [bare .doItKw "doIt", bare .endKw "end"]
      (.function hk hn ho hparams hdo .empty hend) (by simp)
  refine endBody_viable hst hv' (hs₅.closed hc₄) fun us more items hitems => ?_
  exact Derives.completes (more ++ [bare .endKw "end"])
    (.function hk hn ho hparams hd hitems hend) (by simp)

variable (hp : Parses p .primary) (hv : Completes p .primary)
include hp hv

theorem whileStatement_viable (hc : c.Closed)
    (hk : c.current.kind = .whileKw ∨ c.current.kind = .whileNotKw) :
    Viable (whileStatement p st) c (Completable .statement) := by
  have hdo := bare_kind .doItKw "doIt"
  have hend := bare_kind .endKw "end"
  have hne : c.current.kind ≠ .endOfInput := by rcases hk with hk | hk <;> simp [hk]
  unfold whileStatement
  refine test_viable hp hv hc hne (fun us more t ht => ?_) fun t ts doIt c₂ ht hd hc₂ => ?_
  · exact Derives.completes (more ++ [bare .doItKw "doIt", bare .endKw "end"])
      (.whileDo hk ht hdo .empty hend) (by simp)
  · refine endBody_viable hst hv' hc₂ fun us more items hitems => ?_
    exact Derives.completes (more ++ [bare .endKw "end"]) (.whileDo hk ht hd hitems hend) (by simp)

theorem ifStatement_viable (hc : c.Closed)
    (hk : c.current.kind = .ifKw ∨ c.current.kind = .ifNotKw) :
    Viable (ifStatement p st) c (Completable .statement) := by
  have hdo := bare_kind .doItKw "doIt"
  have hend := bare_kind .endKw "end"
  have hne : c.current.kind ≠ .endOfInput := by rcases hk with hk | hk <;> simp [hk]
  unfold ifStatement
  refine test_viable hp hv hc hne (fun us more t ht => ?_) fun t ts doIt c₂ ht hd hc₂ => ?_
  · exact Derives.completes (more ++ [bare .doItKw "doIt", bare .endKw "end"])
      (.ifThen hk ht hdo .empty hend) (by simp)
  refine Viable.bind (body_reads hst (by simp) hc₂)
    ((body_viable hst hv' hc₂).imp fun us _ _ hus => ?_) fun r ts' c₃ hs₃ h => ?_
  · obtain ⟨more, items, hitems⟩ := hus.body .endKw (stops_of_mem (by simp))
    exact Derives.completes (more ++ [bare .endKw "end"]) (.ifThen hk ht hd hitems hend) (by simp)
  obtain ⟨ts', stop, items, rfl, rfl, -, hitems⟩ := h
  have hc₃ := hs₃.closed hc₂
  simp only
  split
  · next helse =>
    refine Viable.bind (reads_skipIf hc₃ (by simp)) viable_skipIf fun _ opt c₄ hs₄ hopt => ?_
    refine endBody_viable hst hv' (hs₄.closed hc₃) fun us more items' hitems' => ?_
    exact Derives.completes (more ++ [bare .endKw "end"])
      (.ifElse hk ht hd (helse ▸ hitems) helse hopt hitems' hend) (by simp)
  · exact viable_pure

theorem forStatement_viable (hc : c.Closed) (hk : c.current.kind = .forKw) :
    Viable (forStatement p st) c (Completable .statement) := by
  have heq := bare_kind .equals "="
  have hto := bare_kind .toKw "to"
  have hdo := bare_kind .doItKw "doIt"
  have hend := bare_kind .endKw "end"
  obtain ⟨first, v, hfirst⟩ := completable_expression_nil.before .toKw (stops_of_mem (by simp))
  obtain ⟨last, w, hlast⟩ := completable_expression_nil.before .doItKw (stops_of_mem (by simp))
  unfold forStatement
  refine viable_drop hc (by simp [hk]) fun hs => ?_
  have hc₁ := hs.closed hc
  refine viable_name hc₁ ?_ fun name c₂ hn hs₂ => ?_
  · exact Derives.completes _ (.forTo hk bare_isName heq hfirst hto hlast hdo .empty hend) rfl
  have hc₂ := hs₂.closed hc₁
  refine viable_take hc₂ (by simp) ?_ fun he hs₃ => ?_
  · exact Derives.completes _ (.forTo hk hn heq hfirst hto hlast hdo .empty hend) rfl
  refine viable_before (expression_parses hp) (expression_completes hp hv) (hs₃.closed hc₂)
    (stops_of_mem (by simp)) (by simp) (fun us more t ht => ?_)
    fun start ts upTo c₅ hstart hup hc₅ => ?_
  · exact Derives.completes
      (more ++ bare .toKw "to" :: (last ++ [bare .doItKw "doIt", bare .endKw "end"]))
      (.forTo hk hn he ht hto hlast hdo .empty hend) (by simp)
  refine viable_before (expression_parses hp) (expression_completes hp hv) hc₅
    (stops_of_mem (by simp)) (by simp) (fun us more t ht => ?_)
    fun stop ts' doIt c₇ hstop hd hc₇ => ?_
  · exact Derives.completes (more ++ [bare .doItKw "doIt", bare .endKw "end"])
      (.forTo hk hn he hstart hup ht hdo .empty hend) (by simp)
  refine endBody_viable hst hv' hc₇ fun us more items hitems => ?_
  exact Derives.completes (more ++ [bare .endKw "end"])
    (.forTo hk hn he hstart hup hstop hd hitems hend) (by simp)

theorem statementStep_completes : Completes (statementStep p st) .statement := by
  intro c hc
  unfold statementStep
  refine viable_kind ?_
  split
  · next hk => exact boxStatement_viable hp hv hc hk
  · next hk => exact noChangeStatement_viable hp hv hc hk
  · next hk => exact boxesStatement_viable hp hv hc hk
  · next hk => exact ifStatement_viable hst hv' hp hv hc (Or.inl hk)
  · next hk => exact ifStatement_viable hst hv' hp hv hc (Or.inr hk)
  · next hk => exact whileStatement_viable hst hv' hp hv hc (Or.inl hk)
  · next hk => exact whileStatement_viable hst hv' hp hv hc (Or.inr hk)
  · next hk => exact forStatement_viable hst hv' hp hv hc hk
  · next hk => exact functionStatement_viable hst hv' hc hk
  · next hk => exact returnStatement_viable hp hv hc hk
  · next hk => exact nameStatement_viable hp hv hc (Or.inl hk)
  · refine viable_peek ?_
    split
    · next hw => exact nameStatement_viable hp hv hc (Or.inr hw)
    · refine viable_refuse (Derives.completes _ (.returnNull (bare_kind .returnKw "return")
        (bare_kind .endKw "end")) rfl)

end

theorem statement_completes : ∀ depth, Completes (statement depth) .statement
  | 0 => fun _ _ => viable_tooDeep
  | depth + 1 => statementStep_completes (statement_parses depth) (statement_completes depth)
      (primary_parses depth) (primary_completes depth)

/-- **What is used before a token is refused begins a program.** -/
theorem program_completes (depth : Nat) : Completes (program depth) .program := by
  intro c hc
  unfold program
  refine viable_remaining (Viable.bind_pure ?_)
  refine (statements_viable (statement_parses depth) (statement_completes depth) _ hc).imp
    fun us _ _ hus => ?_
  obtain ⟨more, items, hitems⟩ := hus.body .endOfInput (stops_of_mem (by simp))
  exact ⟨more, .endOfInput, _, .program hitems⟩

/-! ## Token lists -/

/-- A list that ends with the end of input and has the first `n` tokens of another one. -/
structure Continues (tokens : List Token) (n : Nat) (tokens' : List Token) : Prop where
  closed : ∃ last, tokens'.getLast? = some last ∧ last.kind = .endOfInput
  take_eq : tokens'.take n = tokens.take n

theorem Continues.mono {tokens tokens' : List Token} {m n : Nat} (h : Continues tokens n tokens')
    (hmn : m ≤ n) : Continues tokens m tokens' where
  closed := h.closed
  take_eq := by
    have := congrArg (List.take m) h.take_eq
    rwa [List.take_take, List.take_take, Nat.min_eq_left hmn] at this

/-- What is used of one list and the token after it come again in the other. -/
theorem Continues.spans {d c' : Cursor} (h : Continues c.tokens (ts.length + 1) d.tokens)
    (hs : c.Spans ts c') : ∃ d', d.Spans ts d' ∧ d'.current = c'.current := by
  have htake : d.tokens.take (ts.length + 1) = ts ++ [c'.current] := by
    rw [h.take_eq, hs.eq]
    simp [Cursor.tokens, List.take_append, List.take_of_length_le (Nat.le_succ ts.length)]
  refine ⟨⟨c'.current, d.tokens.drop (ts.length + 1)⟩, ⟨?_, hs.inside⟩, rfl⟩
  calc d.tokens = d.tokens.take (ts.length + 1) ++ d.tokens.drop (ts.length + 1) :=
      (List.take_append_drop _ _).symm
    _ = _ := by rw [htake]; simp [Cursor.tokens]

theorem parseTokens_of_ok {tokens : List Token} {depth : Nat} {c' : Cursor}
    (hc : Cursor.ofList? tokens = some c) (h : program depth c = .ok t c') :
    parseTokens depth tokens = .ok t := by
  simp only [parseTokens, hc, h]

theorem parseTokens_of_error {tokens : List Token} {depth : Nat} {e : Obstacle} {c' : Cursor}
    (hc : Cursor.ofList? tokens = some c) (h : program depth c = .error e c') :
    parseTokens depth tokens = .error e := by
  simp only [parseTokens, hc, h]

/-- A refused token, with the tokens that were used before it. -/
theorem exists_refusal {tokens : List Token} {depth : Nat} {complaint : Complaint} {tok : Token}
    (hc : Cursor.ofList? tokens = some c) (hclosed : c.Closed)
    (h : parseTokens depth tokens = .error (.unexpected complaint tok)) :
    ∃ c' ts, program depth c = .error (.unexpected complaint tok) c' ∧ c.Spans ts c' ∧
      c'.current = tok ∧ Completable .program ts := by
  have hread := program_reads depth hclosed
  have hviable := program_completes depth c hclosed
  unfold Reads at hread
  unfold Viable at hviable
  cases hrun : program depth c with
  | ok t c' =>
    rw [parseTokens_of_ok hc hrun] at h
    cases h
  | error e c' =>
    rw [parseTokens_of_error hc hrun] at h
    rw [ends_of_error hrun] at hread hviable
    cases h
    obtain ⟨ts, hs, hts⟩ := hviable complaint tok rfl
    refine ⟨c', ts, rfl, hs, ?_, hts⟩
    obtain ⟨-, -, he | ⟨_, he⟩ | ⟨_, -, -, -, he⟩⟩ := hread
    · cases he
    · cases he
      rfl
    · cases he

/-- A list with the used tokens and the refused one is refused as well, unless the limit on
    nesting is smaller and is hit. -/
theorem refused_again {tokens tokens' : List Token} {depth : Nat} {complaint : Complaint}
    {c' : Cursor} (htokens : c.tokens = tokens) (hclosed : c.Closed)
    (hrun : program depth c = .error (.unexpected complaint c'.current) c') (hs : c.Spans ts c')
    (h : Continues tokens (ts.length + 1) tokens') (depth' : Nat) :
    parseTokens depth' tokens' = .error (.unexpected complaint c'.current) ∨
      parseTokens depth' tokens' = .error .tooDeep ∧ depth' < depth := by
  obtain ⟨last, hl, hk⟩ := h.closed
  obtain ⟨d, hd, htokens', hdclosed⟩ := Cursor.ofList?_eq hl hk
  -- the tokens come again from the beginning of the other list
  subst htokens htokens'
  obtain ⟨d₁, hds, hcur⟩ := h.spans hs
  have hlarge : ∀ {n : Nat}, depth ≤ n → ∃ d',
      program n d = .error (.unexpected complaint c'.current) d' := fun hn => by
    have hrepeat := (ends_of_error hrun).1 (program_parallel hn c d hclosed hdclosed) (by simp)
    obtain ⟨ts', hs', hP⟩ := hrepeat
    obtain rfl := hs.unique hs'
    exact ⟨_, hP _ hds hcur⟩
  rcases Nat.lt_or_ge depth' depth with hlt | hge
  · -- a smaller limit is hit, or gives what the larger one gives
    obtain ⟨d', hd'⟩ := hlarge (Nat.le_refl depth)
    have hsame := (program_parallel (Nat.le_of_lt hlt)).same hdclosed
    cases hsmall : program depth' d with
    | ok t d'' =>
      rw [ends_of_ok hsmall, hd'] at hsame
      cases hsame
    | error e d'' =>
      rw [ends_of_error hsmall, hd'] at hsame
      by_cases he : e = .tooDeep
      · exact Or.inr ⟨by rw [parseTokens_of_error hd hsmall, he], hlt⟩
      · cases hsame he
        exact Or.inl (parseTokens_of_error hd hsmall)
  · obtain ⟨d', hd'⟩ := hlarge hge
    exact Or.inl (parseTokens_of_error hd hd')

/-- The used tokens can be continued to an accepted list. -/
theorem Completable.accepted {tokens : List Token} (h : Completable .program ts)
    (htake : tokens.take ts.length = ts) :
    ∃ tokens' t, Continues tokens ts.length tokens' ∧ ∀ depth, tokens'.length ≤ depth →
      parseTokens depth tokens' = .ok t := by
  obtain ⟨more, t, ht⟩ := h.before .endOfInput rfl
  have hend := bare_kind .endOfInput ""
  refine ⟨ts ++ more ++ [bare .endOfInput ""], t, ⟨⟨_, List.getLast?_concat, hend⟩, ?_⟩, ?_⟩
  · rw [htake, List.append_assoc, List.take_left]
  · intro depth hdepth
    rcases parseTokens_derived ht hend depth with hok | ⟨_, hshort⟩
    · exact hok
    · simp only [List.length_append, List.length_singleton] at hdepth hshort
      omega

/-- **The earliest and final place of an error.**  If a token of a list that ends with the end of
    input is refused, then every list that begins with the same tokens up to this one is refused
    at it with the same complaint, whatever follows, unless the limit on nesting is smaller and
    is hit; but the tokens before it can be continued to a list that is accepted.  So the token
    is the first one with which no continuation is accepted. -/
theorem parseTokens_error_earliest {tokens : List Token} {last tok : Token} {depth : Nat}
    {complaint : Complaint} (hl : tokens.getLast? = some last) (hk : last.kind = .endOfInput)
    (h : parseTokens depth tokens = .error (.unexpected complaint tok)) :
    ∃ k, tokens[k]? = some tok ∧
      (complaint.report tok).line = tok.line ∧ (complaint.report tok).column = tok.column ∧
      (∀ tokens', Continues tokens (k + 1) tokens' → ∀ depth',
        parseTokens depth' tokens' = .error (.unexpected complaint tok) ∨
          parseTokens depth' tokens' = .error .tooDeep ∧ depth' < depth) ∧
      (∃ tokens' t, Continues tokens k tokens' ∧ ∀ depth', tokens'.length ≤ depth' →
        parseTokens depth' tokens' = .ok t) ∧
      ∀ j, (∃ tokens' depth' t, Continues tokens (j + 1) tokens' ∧
        parseTokens depth' tokens' = .ok t) ↔ j < k := by
  obtain ⟨c, hc, htokens, hclosed⟩ := Cursor.ofList?_eq hl hk
  obtain ⟨c', ts, hrun, hs, rfl, hts⟩ := exists_refusal hc hclosed h
  have hsplit : tokens = ts ++ c'.current :: c'.later := htokens.symm.trans hs.eq
  have hfinal := fun tokens' (h' : Continues tokens (ts.length + 1) tokens') =>
    refused_again htokens hclosed hrun hs h'
  have htake : tokens.take ts.length = ts := by rw [hsplit, List.take_left]
  have haccepted := hts.accepted htake
  refine ⟨ts.length, by simp [hsplit], rfl, rfl, hfinal, haccepted, fun j => ⟨?_, fun hj => ?_⟩⟩
  · rintro ⟨tokens', depth', t, hcont, hok⟩
    rcases Nat.lt_or_ge j ts.length with hj | hj
    · exact hj
    · rcases hfinal tokens' (hcont.mono (by omega)) depth' with he | ⟨he, -⟩ <;>
        rw [hok] at he <;> cases he
  · obtain ⟨tokens', t, hcont, hok⟩ := haccepted
    exact ⟨tokens', _, t, hcont.mono hj, hok _ (Nat.le_refl _)⟩

/-- An `end` on the second line. -/
def lateEnd : Token := ⟨.endKw, "end", some 2, some 1⟩

/-- The tokens of `f(subtract "a"`, an `end` and a further `)`. -/
def unclosedCall : List Token :=
  [bare .identifier "f", bare .beginParams "(", bare .minus "subtract", bare .string "a", lateEnd,
   bare .endParams ")", bare .endOfInput ""]

/-- The `end` in the call is refused whatever comes after it; without it, the call can be
    closed. -/
theorem parseTokens_error_earliest_call :
    unclosedCall.getLast? = some (bare .endOfInput "") ∧
      parseTokens 9 unclosedCall = .error (.unexpected .inExpression lateEnd) ∧
      (Complaint.report .inExpression lateEnd).line = some 2 ∧
      (∀ tokens', Continues unclosedCall 5 tokens' → ∀ depth,
        parseTokens depth tokens' = .error (.unexpected .inExpression lateEnd) ∨
          parseTokens depth tokens' = .error .tooDeep ∧ depth < 9) ∧
      (∃ tokens' t, Continues unclosedCall 4 tokens' ∧ ∀ depth, tokens'.length ≤ depth →
        parseTokens depth tokens' = .ok t) ∧
      ∀ j, (∃ tokens' depth t, Continues unclosedCall (j + 1) tokens' ∧
        parseTokens depth tokens' = .ok t) ↔ j < 4 := by
  have hlast : unclosedCall.getLast? = some (bare .endOfInput "") := rfl
  have hrun : parseTokens 9 unclosedCall = .error (.unexpected .inExpression lateEnd) := by rfl
  obtain ⟨k, htok, hline, -, hfinal, haccepted, hleast⟩ :=
    parseTokens_error_earliest hlast rfl hrun
  obtain rfl : k = 4 := by
    rcases k with _ | _ | _ | _ | _ | _ | _ | k <;>
      simp [unclosedCall, lateEnd, bare] at htok ⊢
  exact ⟨hlast, hrun, hline, hfinal, haccepted, hleast⟩

end Grammar

end BoxScript
