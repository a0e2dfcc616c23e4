/-
  What a parser accepts is derived by the grammar.

  There is one lemma for each parser, which says what it reads if the parsers that it is given
  read what they should (`Parses`).  A loop reads what the grammar derives as long as it has
  more rounds than there are tokens left.  `statement_parses` and `program_reads` tie the knot.
-/
import BoxScript.Proofs.Grammar.Reading

namespace BoxScript.Grammar

open Parse

/-- The parser reads trees of the form, wherever it begins. -/
def Parses (x : Parse Tree) (form : Form) : Prop :=
  ∀ c : Cursor, c.Closed → Reads x c (Derives form)

variable {p : Parse Tree} {c : Cursor}

/-! ## Chains -/

/-- The rest of a chain, after some links that began earlier. -/
theorem chainRest_reads {k : Chain} {operand : Parse Tree} (hop : Parses operand k.operand) :
    ∀ (rounds : Nat) {c : Cursor} {ts : List Token} {left : Tree}, c.Closed →
      c.later.length ≤ rounds → Derives (.links k) ts c.current.kind left →
      Reads (chainRest operand k.joins k.join rounds left) c
        fun ts' next t => Derives (.chain k) (ts ++ ts') next t := by
  intro rounds
  induction rounds with
  | zero =>
    intro c ts left hc hlen hleft
    have hend : c.current.kind = .endOfInput := hc.kind_of_last (Nat.le_zero.1 hlen)
    refine reads_pure ?_
    rw [List.append_nil]
    exact .chain hleft (by rw [hend]; cases k <;> rfl)
  | succ rounds ih =>
    intro c ts left hc hlen hleft
    unfold chainRest
    refine reads_kind ?_
    split
    · next hj =>
      have hk : c.current.kind ≠ .endOfInput := fun he => by
        rw [he] at hj
        cases k <;> cases hj
      refine reads_advance_bind hc hk fun hs => ?_
      refine (hop _ (hs.closed hc)).bind fun right ts' c₂ hs₂ hright => ?_
      have hlen₂ : c₂.later.length ≤ rounds := by
        have h₁ := hs.length
        have h₂ := hs₂.length
        simp only [List.length_singleton] at h₁
        omega
      refine (ih (hs₂.closed (hs.closed hc)) hlen₂ (.joined hleft hj hright)).imp
        fun ts'' c₃ t _ h => ?_
      simpa using h
    · next hj =>
      refine reads_pure ?_
      rw [List.append_nil]
      exact .chain hleft (by simpa using hj)

theorem chain_parses {k : Chain} {operand : Parse Tree} (hop : Parses operand k.operand) :
    Parses (chain operand k.joins k.join) (.chain k) := by
  intro c hc
  unfold chain
  refine (hop c hc).bind fun first ts c₁ hs hfirst => reads_remaining ?_
  exact chainRest_reads hop _ (hs.closed hc) (Nat.le_refl _) (.first hfirst)

section
variable (hp : Parses p .primary)
include hp

theorem expression_parses : Parses (expression p) (.chain .expression) :=
  chain_parses (k := .expression) hp

theorem condition_parses : Parses (condition p) (.chain .condition) :=
  chain_parses (k := .condition) (chain_parses (k := .comparison) hp)

theorem group_reads (hc : c.Closed) (hk : c.current.kind = .beginParams) :
    Reads (group p) c (Derives .primary) := by
  unfold group
  refine reads_drop hc (by simp [hk]) fun hs => ?_
  have hc₁ := hs.closed hc
  refine (chain_parses (k := .grouped) (expression_parses hp) _ hc₁).bind
    fun t ts c₂ hs₂ ht => ?_
  refine reads_take (hs₂.closed hc₁) (by simp) fun hk₂ hs₃ => reads_pure ?_
  exact .group hk (hk₂ ▸ ht) hk₂

/-! ## Lists in brackets -/

omit hp in
/-- What is taken between two elements can stand before the closing bracket as well. -/
theorem skipSeparator_reads (hc : c.Closed) :
    Reads skipSeparator c fun ts next _ =>
      Separator .closeArray ts ∧ (next ≠ .endOfInput → Separator next ts) := by
  unfold skipSeparator
  refine reads_kind ?_
  split
  · next h =>
    by_cases he : c.current.kind = .endOfInput
    · -- the end of input is not passed, so nothing is taken
      refine ⟨[], ?_, .absent (Or.inl rfl), fun hn => absurd ?_ hn⟩
      · show c.Spans [] c.next
        rw [Cursor.next, if_pos he]
        exact .refl c
      · show c.next.current.kind = .endOfInput
        rw [Cursor.next, if_pos he, he]
    · have hsep : c.current.kind.Separates := by
        rcases h with h | ⟨h, h'⟩
        · rw [h]; exact ⟨by simp, by simp, rfl⟩
        · exact ⟨h, he, by simpa using h'⟩
      exact ends_discard.2 ⟨[c.current], hc.spans he, .present hsep, fun _ => .present hsep⟩
  · next h =>
    refine reads_pure ⟨.absent (Or.inl rfl), fun _ => .absent ?_⟩
    by_cases hk : c.current.kind = .closeArray
    · exact Or.inl hk
    · cases hs : c.current.kind.startsElement with
      | true => exact Or.inr rfl
      | false => exact absurd (Or.inr ⟨hk, by rw [hs]; rfl⟩) h

theorem elements_reads : ∀ (rounds : Nat) {c : Cursor}, c.Closed → c.later.length < rounds →
    Reads (elements p rounds) c fun ts next items => Derives .elements ts next (.list items) := by
  intro rounds
  induction rounds with
  | zero => intro c _ h; omega
  | succ rounds ih =>
    intro c hc hlen
    unfold elements
    refine reads_kind ?_
    split
    · next hk => exact reads_drop hc (by simp [hk]) fun _ => reads_pure (.noElement hk)
    · exact reads_refuse
    · refine (expression_parses hp c hc).bind fun t ts c₁ hs ht => ?_
      refine (skipSeparator_reads (hs.closed hc)).bind fun _ sep c₂ hs₂ ⟨_, hsep⟩ => ?_
      have hlen₂ : c₂.later.length < rounds := by
        have h₁ := hs.length
        have h₂ := hs₂.length
        have := ht.length_pos rfl
        omega
      refine (ih (hs₂.closed (hs.closed hc)) hlen₂).bind fun items ts' c₃ hs₃ hitems => ?_
      refine reads_pure ?_
      simp only [List.append_nil]
      have hne : c₂.current.kind ≠ .endOfInput := by
        obtain ⟨tok, rest, rfl, -⟩ := hitems.begins rfl
        rw [hs₃.cons.1]
        exact hs₃.cons.2.1
      rw [← (hs₂.trans hs₃).leading] at ht
      exact .element ht (by rw [hs₃.leading]; exact hsep hne) hitems

theorem arrayLiteral_parses : Parses (arrayLiteral p) .array := by
  intro c hc
  unfold arrayLiteral
  refine reads_take hc (by simp) fun hk hs => reads_remaining ?_
  refine (elements_reads hp _ (hs.closed hc) (Nat.lt_succ_self _)).bind
    fun items ts c₂ _ hitems => reads_pure ?_
  rw [List.append_nil]
  exact .array hk hitems

theorem arguments_reads : ∀ (rounds : Nat) {c : Cursor}, c.Closed → c.later.length < rounds →
    Reads (arguments p rounds) c fun ts next args => Derives .arguments ts next (.list args) := by
  intro rounds
  induction rounds with
  | zero => intro c _ h; omega
  | succ rounds ih =>
    intro c hc hlen
    unfold arguments
    refine reads_kind ?_
    split
    · next hk => exact reads_drop hc (by simp [hk]) fun _ => reads_pure (.noArgument hk)
    · exact reads_refuse
    · refine (expression_parses hp c hc).bind fun t ts c₁ hs ht => ?_
      refine (reads_skipIf (hs.closed hc) (by simp)).bind fun _ sep c₂ hs₂ hsep => ?_
      have hlen₂ : c₂.later.length < rounds := by
        have h₁ := hs.length
        have h₂ := hs₂.length
        have := ht.length_pos rfl
        omega
      refine (ih (hs₂.closed (hs.closed hc)) hlen₂).bind fun args ts' c₃ hs₃ hargs => ?_
      refine reads_pure ?_
      simp only [List.append_nil]
      rw [← (hs₂.trans hs₃).leading] at ht
      exact .argument ht hsep hargs

/-! ## Names -/

/-- The further indices and argument lists of a name that began earlier. -/
theorem suffixes_reads : ∀ (rounds : Nat) {c : Cursor} {ts : List Token} {base : Tree},
    c.Closed → c.later.length ≤ rounds → Derives .named ts c.current.kind base →
    Reads (suffixes p rounds base) c
      fun ts' next t => Derives .named (ts ++ ts') next t ∧ ¬next.Opens := by
  intro rounds
  induction rounds with
  | zero =>
    intro c ts base hc hlen hbase
    have hend : c.current.kind = .endOfInput := hc.kind_of_last (Nat.le_zero.1 hlen)
    refine reads_pure ⟨by rwa [List.append_nil], ?_⟩
    rw [hend]
    simp [Kind.Opens]
  | succ rounds ih =>
    intro c ts base hc hlen hbase
    unfold suffixes
    refine reads_kind ?_
    split
    · next hk =>
      refine reads_drop hc (by simp [hk]) fun hs => ?_
      have hc₁ := hs.closed hc
      refine (expression_parses hp _ hc₁).bind fun t ts' c₂ hs₂ ht => ?_
      refine reads_take (hs₂.closed hc₁) (by simp) fun hk₂ hs₃ => ?_
      have hlen₃ : c₂.next.later.length ≤ rounds := by
        have h₁ := hs.length
        have h₂ := hs₂.length
        have h₃ := hs₃.length
        simp only [List.length_singleton] at h₁ h₃
        omega
      refine (ih (hs₃.closed (hs₂.closed hc₁)) hlen₃
        (.index (hk ▸ hbase) hk (hk₂ ▸ ht) hk₂)).imp fun ts'' c₄ t _ h => ?_
      simpa using h
    · next hk =>
      refine reads_drop hc (by simp [hk]) fun hs => reads_remaining ?_
      have hc₁ := hs.closed hc
      refine (arguments_reads hp _ hc₁ (Nat.lt_succ_self _)).bind fun args ts' c₂ hs₂ hargs => ?_
      have hlen₂ : c₂.later.length ≤ rounds := by
        have h₁ := hs.length
        have h₂ := hs₂.length
        simp only [List.length_singleton] at h₁
        omega
      refine (ih (hs₂.closed hc₁) hlen₂ (.call (hk ▸ hbase) hk hargs)).imp
        fun ts'' c₃ t _ h => ?_
      simpa using h
    · next ho hb => exact reads_pure ⟨by rwa [List.append_nil], fun h => h.elim ho hb⟩

/-- What follows a name that was just taken. -/
theorem named_reads {name : Token} (hn : name.IsName) (hc : c.Closed) :
    Reads (named p name.text) c
      fun ts next t => Derives .named (name :: ts) next t ∧ ¬next.Opens := by
  unfold named
  refine reads_remaining ?_
  exact suffixes_reads hp _ hc (Nat.le_refl _) (.name hn)

/-! ## Primaries -/

omit hp in
theorem atName_iff : atName c = true ↔ c.current.IsName ∧
    (c.current.kind = .minus → c.lookahead.kind = .beginParams) := by
  simp only [atName, Token.IsName, Bool.or_eq_true, Bool.and_eq_true, decide_eq_true_eq,
    bne_iff_ne, ne_eq, beq_iff_eq]
  constructor
  · rintro (h | ⟨hw, h⟩)
    · exact ⟨Or.inl h, fun hm => by rw [h] at hm; cases hm⟩
    · exact ⟨Or.inr hw, fun hm => h.resolve_left (not_not_intro hm)⟩
  · rintro ⟨h | hw, hm⟩
    · exact Or.inl h
    · by_cases hk : c.current.kind = .minus
      · exact Or.inr ⟨hw, Or.inr (hm hk)⟩
      · exact Or.inr ⟨hw, Or.inl hk⟩

theorem primaryStep_parses : Parses (primaryStep p) .primary := by
  intro c hc
  unfold primaryStep
  refine reads_get ?_
  split
  · next hat =>
    obtain ⟨hn, hm⟩ := atName_iff.1 hat
    refine reads_advance_bind hc hn.ne_endOfInput fun hs => ?_
    refine (named_reads hp hn (hs.closed hc)).imp fun ts c' t hs' ⟨ht, hopen⟩ => ?_
    have hlook : c.lookahead.kind = leading ts c'.current.kind := (hs.trans hs').cons_lookahead
    exact .named ht hopen fun hk => hlook ▸ hm hk
  · next hat =>
    refine reads_kind ?_
    split
    · next hk =>
      have hk' : c.current.kind ≠ .endOfInput := by simp [hk]
      cases hx : Number.read? c.current.text with
      | some x =>
        refine reads_advance_bind hc hk' fun _ => ?_
        simp only [hx]
        exact reads_pure (.number hk hx)
      | none =>
        -- the number to blame was taken before it was read
        simp only [Reads, Parse.advance, ends_bind, ends_modifyGet, hx, ends_throw]
        exact ⟨[c.current], hc.spans hk', Or.inr (Or.inr ⟨c.current, by simp, hk, hx, rfl⟩)⟩
    · next hk => exact reads_advance_bind hc (by simp [hk]) fun _ => reads_pure (.string hk)
    · next hk => exact reads_advance_bind hc (by simp [hk]) fun _ => reads_pure (.boolean hk)
    · exact (arrayLiteral_parses hp c hc).imp fun _ _ _ _ h => .literal h
    · next hk => exact group_reads hp hc hk
    · next hk =>
      refine reads_advance_bind hc (by simp [hk]) fun hs => ?_
      refine (hp _ (hs.closed hc)).bind fun t ts c₂ hs₂ ht => reads_pure ?_
      rw [List.append_nil]
      refine .negative hk (fun hw hb => hat (atName_iff.2 ⟨Or.inr hw, fun _ => ?_⟩)) ht
      exact (hs.trans hs₂).cons_lookahead.trans hb
    · next hk =>
      refine reads_drop hc (by simp [hk]) fun hs => ?_
      refine (hp _ (hs.closed hc)).bind fun t ts c₂ _ ht => reads_pure ?_
      rw [List.append_nil]
      exact .not hk ht
    · exact reads_refuse

end

theorem primary_parses : ∀ depth, Parses (primary depth) .primary
  | 0 => fun _ _ => reads_tooDeep
  | depth + 1 => primaryStep_parses (primary_parses depth)

/-! ## Bodies -/

variable {st : Parse Tree}

section
variable (hst : Parses st .statement)
include hst

/-- Statements up to a token that closes the body. -/
theorem statements_reads {closes : Kind → Bool} : ∀ (rounds : Nat) {c : Cursor}, c.Closed →
    c.later.length < rounds → Reads (statements st closes rounds) c
      fun ts next items => Derives .body ts next (.list items) ∧ closes next = true := by
  intro rounds
  induction rounds with
  | zero => intro c _ h; omega
  | succ rounds ih =>
    intro c hc hlen
    unfold statements
    refine reads_kind ?_
    split
    · next hk => exact reads_pure ⟨.empty, hk⟩
    · split
      · exact reads_refuse
      · refine (hst c hc).bind fun t ts c₁ hs ht => ?_
        have hlen₁ : c₁.later.length < rounds := by
          have h₁ := hs.length
          have := ht.length_pos rfl
          omega
        refine (ih (hs.closed hc) hlen₁).bind fun items ts' c₂ hs₂ ⟨hitems, hk⟩ => ?_
        refine reads_pure ⟨?_, hk⟩
        rw [List.append_nil]
        rw [← hs₂.leading] at ht
        exact .more ht hitems

/-- A body with the token that closes it. -/
theorem body_reads {closes : Kind → Bool} (hcl : closes .endOfInput = false) (hc : c.Closed) :
    Reads (body st closes) c fun ts _ r => ∃ ts' stop items, ts = ts' ++ [stop] ∧
      r = (.block (.list items), stop.kind) ∧ closes stop.kind = true ∧
      Derives .body ts' stop.kind (.list items) := by
  unfold body
  refine reads_remaining ?_
  refine (statements_reads hst _ hc (Nat.lt_succ_self _)).bind
    fun items ts c₁ hs ⟨hitems, hk⟩ => ?_
  have hend : c₁.current.kind ≠ .endOfInput := fun he => by
    rw [he, hcl] at hk
    cases hk
  refine reads_advance_bind (hs.closed hc) hend fun _ => reads_pure ?_
  exact ⟨ts, c₁.current, items, rfl, rfl, hk, hitems⟩

/-- A body that only `end` closes. -/
theorem endBody_reads (hc : c.Closed) :
    Reads (body st fun k => k = .endKw) c fun ts _ r => ∃ ts' stop items, ts = ts' ++ [stop] ∧
      r = (.block (.list items), stop.kind) ∧ stop.kind = .endKw ∧
      Derives .body ts' .endKw (.list items) := by
  refine (body_reads hst (by simp) hc).imp fun ts c' r _ h => ?_
  obtain ⟨ts', stop, items, hts, hr, hk, hitems⟩ := h
  have hk : stop.kind = .endKw := by simpa using hk
  exact ⟨ts', stop, items, hts, hr, hk, hk ▸ hitems⟩

end

/-! ## Statements -/

section
variable (hp : Parses p .primary)
include hp

theorem boxStatement_reads (hc : c.Closed) (hk : c.current.kind = .boxKw) :
    Reads (boxStatement p) c (Derives .statement) := by
  unfold boxStatement
  refine reads_drop hc (by simp [hk]) fun hs => ?_
  refine reads_name (hs.closed hc) fun name c₂ hn hs₂ => reads_kind ?_
  have hc₂ := hs₂.closed (hs.closed hc)
  split
  · next hend =>
    refine reads_take hc₂ (by simp) fun hk₃ _ => reads_pure ?_
    exact .box hk hn hk₃
  · refine reads_take hc₂ (by simp) fun he hs₃ => ?_
    have hc₃ := hs₃.closed hc₂
    refine (expression_parses hp _ hc₃).bind fun t ts c₄ hs₄ ht => ?_
    refine reads_take (hs₄.closed hc₃) (by simp) fun hk₅ _ => reads_pure ?_
    exact .boxSet hk hn he (hk₅ ▸ ht) hk₅

theorem noChangeStatement_reads (hc : c.Closed) (hk : c.current.kind = .noChangeKw) :
    Reads (noChangeStatement p) c (Derives .statement) := by
  unfold noChangeStatement
  refine reads_drop hc (by simp [hk]) fun hs => ?_
  refine reads_name (hs.closed hc) fun name c₂ hn hs₂ => ?_
  have hc₂ := hs₂.closed (hs.closed hc)
  refine reads_take hc₂ (by simp) fun he hs₃ => ?_
  have hc₃ := hs₃.closed hc₂
  refine (expression_parses hp _ hc₃).bind fun t ts c₄ hs₄ ht => ?_
  refine reads_take (hs₄.closed hc₃) (by simp) fun hk₅ _ => reads_pure ?_
  exact .noChange hk hn he (hk₅ ▸ ht) hk₅

theorem boxesStatement_reads (hc : c.Closed) (hk : c.current.kind = .boxesKw) :
    Reads (boxesStatement p) c (Derives .statement) := by
  unfold boxesStatement
  refine reads_drop hc (by simp [hk]) fun hs => ?_
  refine reads_name (hs.closed hc) fun name c₂ hn hs₂ => ?_
  have hc₂ := hs₂.closed (hs.closed hc)
  refine reads_take hc₂ (by simp) fun he hs₃ => ?_
  have hc₃ := hs₃.closed hc₂
  refine (arrayLiteral_parses hp _ hc₃).bind fun t ts c₄ hs₄ ht => ?_
  refine reads_take (hs₄.closed hc₃) (by simp) fun hk₅ _ => reads_pure ?_
  exact .boxes hk hn he (hk₅ ▸ ht) hk₅

/-- A condition with the keyword before it. -/
theorem test_reads {negated : Kind} (hc : c.Closed) (hk : c.current.kind ≠ .endOfInput) :
    Reads (test p negated) c fun ts next t => ∃ ts' inner, ts = c.current :: ts' ∧
      t = turned c.current.kind negated inner ∧ Derives (.chain .condition) ts' next inner := by
  unfold test
  refine reads_advance_bind hc hk fun hs => ?_
  refine (condition_parses hp _ (hs.closed hc)).bind fun inner ts c₂ _ ht => reads_pure ?_
  exact ⟨ts, inner, by rw [List.append_nil], rfl, ht⟩

theorem returnStatement_reads (hc : c.Closed) (hk : c.current.kind = .returnKw) :
    Reads (returnStatement p) c (Derives .statement) := by
  unfold returnStatement
  refine reads_drop hc (by simp [hk]) fun hs => reads_kind ?_
  have hc₁ := hs.closed hc
  split
  · exact reads_take hc₁ (by simp) fun hk₂ _ => reads_pure (.returnNull hk hk₂)
  · refine (expression_parses hp _ hc₁).bind fun t ts c₂ hs₂ ht => ?_
    refine reads_take (hs₂.closed hc₁) (by simp) fun hk₃ _ => reads_pure ?_
    exact .returnValue hk (hk₃ ▸ ht) hk₃

omit hp in
theorem target_of_isTarget {t : Tree} (h : isTarget t = true) :
    (∃ x, t = .identifier x) ∨ ∃ a i, t = .arrayAccess a i := by
  unfold isTarget at h
  split at h
  · next x => exact Or.inl ⟨x, rfl⟩
  · next a i => exact Or.inr ⟨a, i, rfl⟩
  · cases h

omit hp in
theorem call_of_isCall {t : Tree} (h : isCall t = true) : ∃ f args, t = .callExpression f args := by
  unfold isCall at h
  split at h
  · next f args => exact ⟨f, args, rfl⟩
  · cases h

theorem nameStatement_reads (hc : c.Closed) (hn : c.current.IsName) :
    Reads (nameStatement p) c (Derives .statement) := by
  unfold nameStatement
  refine reads_advance_bind hc hn.ne_endOfInput fun hs => ?_
  have hc₁ := hs.closed hc
  refine (named_reads hp hn hc₁).bind fun target ts c₂ hs₂ ⟨htarget, hopen⟩ => reads_kind ?_
  have hc₂ := hs₂.closed hc₁
  split
  · next he =>
    split
    · next ht =>
      refine reads_drop hc₂ (by simp [he]) fun hs₃ => ?_
      have hc₃ := hs₃.closed hc₂
      refine (expression_parses hp _ hc₃).bind fun t ts' c₄ hs₄ hvalue => ?_
      refine reads_take (hs₄.closed hc₃) (by simp) fun hk₅ _ => reads_pure ?_
      exact .assign (he ▸ htarget) (target_of_isTarget ht) he (hk₅ ▸ hvalue) hk₅
    · exact reads_refuse
  · next he =>
    split
    · next ht =>
      obtain ⟨f, args, rfl⟩ := call_of_isCall ht
      refine reads_pure ?_
      rw [List.append_nil]
      exact .callOnly htarget hopen he
    · exact reads_refuse

end

/-- The further parameters of a function. -/
theorem parameters_reads : ∀ (rounds : Nat) {c : Cursor}, c.Closed → c.later.length < rounds →
    Reads (parameters rounds) c
      fun ts next params => Derives .parameters ts next (.list params) := by
  intro rounds
  induction rounds with
  | zero => intro c _ h; omega
  | succ rounds ih =>
    intro c hc hlen
    unfold parameters
    refine reads_kind ?_
    split
    · next hk => exact reads_drop hc (by simp [hk]) fun _ => reads_pure (.noParameter hk)
    · refine reads_name hc fun name c₁ hn hs => ?_
      refine (reads_skipIf (hs.closed hc) (by simp)).bind fun _ sep c₂ hs₂ hsep => ?_
      have hlen₂ : c₂.later.length < rounds := by
        have h₁ := hs.length
        have h₂ := hs₂.length
        simp only [List.length_singleton] at h₁
        omega
      refine (ih (hs₂.closed (hs.closed hc)) hlen₂).bind fun params ts c₃ _ hparams => ?_
      refine reads_pure ?_
      rw [List.append_nil]
      exact .parameter hn hsep hparams

section
variable (hp : Parses p .primary) (hst : Parses st .statement)
include hst

theorem functionStatement_reads (hc : c.Closed) (hk : c.current.kind = .functionKw) :
    Reads (functionStatement st) c (Derives .statement) := by
  unfold functionStatement
  refine reads_drop hc (by simp [hk]) fun hs => ?_
  refine reads_name (hs.closed hc) fun name c₂ hn hs₂ => ?_
  have hc₂ := hs₂.closed (hs.closed hc)
  refine reads_take hc₂ (by simp) fun ho hs₃ => reads_remaining ?_
  have hc₃ := hs₃.closed hc₂
  refine (parameters_reads _ hc₃ (Nat.lt_succ_self _)).bind fun params ps c₄ hs₄ hparams => ?_
  have hc₄ := hs₄.closed hc₃
  refine reads_take hc₄ (by simp) fun hd hs₅ => ?_
  refine (endBody_reads hst (hs₅.closed hc₄)).bind fun r ts c₆ _ h => ?_
  obtain ⟨ts', stop, items, rfl, rfl, hstop, hitems⟩ := h
  refine reads_pure ?_
  rw [List.append_nil]
  exact .function hk hn ho (hd ▸ hparams) hd hitems hstop

include hp

theorem ifStatement_reads (hc : c.Closed)
    (hk : c.current.kind = .ifKw ∨ c.current.kind = .ifNotKw) :
    Reads (ifStatement p st) c (Derives .statement) := by
  have hne : c.current.kind ≠ .endOfInput := by rcases hk with hk | hk <;> simp [hk]
  unfold ifStatement
  refine (test_reads hp hc hne).bind fun t ts c₁ hs h => ?_
  obtain ⟨ts, inner, rfl, rfl, htest⟩ := h
  have hc₁ := hs.closed hc
  refine reads_take hc₁ (by simp) fun hd hs₂ => ?_
  have hc₂ := hs₂.closed hc₁
  refine (body_reads hst (by simp) hc₂).bind fun r ts' c₃ hs₃ h => ?_
  obtain ⟨ts', stop, items, rfl, rfl, hstop, hitems⟩ := h
  have hc₃ := hs₃.closed hc₂
  have hcases : stop.kind = .endKw ∨ stop.kind = .elseKw := by simpa using hstop
  simp only
  split
  · next helse =>
    refine (reads_skipIf hc₃ (by simp)).bind fun _ opt c₄ hs₄ hopt => ?_
    refine (endBody_reads hst (hs₄.closed hc₃)).bind fun r ts'' c₅ _ h => ?_
    obtain ⟨ts'', stop', items', rfl, rfl, hstop', hitems'⟩ := h
    refine reads_pure ?_
    simpa using Arranged.ifElse hk (hd ▸ htest) hd (helse ▸ hitems) helse hopt hitems' hstop'
  · next helse =>
    have hend : stop.kind = .endKw := hcases.resolve_right helse
    refine reads_pure ?_
    rw [List.append_nil]
    exact .ifThen hk (hd ▸ htest) hd (hend ▸ hitems) hend

theorem whileStatement_reads (hc : c.Closed)
    (hk : c.current.kind = .whileKw ∨ c.current.kind = .whileNotKw) :
    Reads (whileStatement p st) c (Derives .statement) := by
  have hne : c.current.kind ≠ .endOfInput := by rcases hk with hk | hk <;> simp [hk]
  unfold whileStatement
  refine (test_reads hp hc hne).bind fun t ts c₁ hs h => ?_
  obtain ⟨ts, inner, rfl, rfl, htest⟩ := h
  have hc₁ := hs.closed hc
  refine reads_take hc₁ (by simp) fun hd hs₂ => ?_
  refine (endBody_reads hst (hs₂.closed hc₁)).bind fun r ts' c₃ _ h => ?_
  obtain ⟨ts', stop, items, rfl, rfl, hstop, hitems⟩ := h
  refine reads_pure ?_
  rw [List.append_nil]
  exact .whileDo hk (hd ▸ htest) hd hitems hstop

theorem forStatement_reads (hc : c.Closed) (hk : c.current.kind = .forKw) :
    Reads (forStatement p st) c (Derives .statement) := by
  unfold forStatement
  refine reads_drop hc (by simp [hk]) fun hs => ?_
  refine reads_name (hs.closed hc) fun name c₂ hn hs₂ => ?_
  have hc₂ := hs₂.closed (hs.closed hc)
  refine reads_take hc₂ (by simp) fun he hs₃ => ?_
  have hc₃ := hs₃.closed hc₂
  refine (expression_parses hp _ hc₃).bind fun start ts c₄ hs₄ hstart => ?_
  have hc₄ := hs₄.closed hc₃
  refine reads_take hc₄ (by simp) fun ht hs₅ => ?_
  have hc₅ := hs₅.closed hc₄
  refine (expression_parses hp _ hc₅).bind fun last ts' c₆ hs₆ hlast => ?_
  have hc₆ := hs₆.closed hc₅
  refine reads_take hc₆ (by simp) fun hd hs₇ => ?_
  refine (endBody_reads hst (hs₇.closed hc₆)).bind fun r ts'' c₈ _ h => ?_
  obtain ⟨ts'', stop, items, rfl, rfl, hstop, hitems⟩ := h
  refine reads_pure ?_
  rw [List.append_nil]
  exact .forTo hk hn he (ht ▸ hstart) ht (hd ▸ hlast) hd hitems hstop

theorem statementStep_parses : Parses (statementStep p st) .statement := by
  intro c hc
  unfold statementStep
  refine reads_kind ?_
  split
  · next hk => exact boxStatement_reads hp hc hk
  · next hk => exact noChangeStatement_reads hp hc hk
  · next hk => exact boxesStatement_reads hp hc hk
  · next hk => exact ifStatement_reads hp hst hc (Or.inl hk)
  · next hk => exact ifStatement_reads hp hst hc (Or.inr hk)
  · next hk => exact whileStatement_reads hp hst hc (Or.inl hk)
  · next hk => exact whileStatement_reads hp hst hc (Or.inr hk)
  · next hk => exact forStatement_reads hp hst hc hk
  · next hk => exact functionStatement_reads hst hc hk
  · next hk => exact returnStatement_reads hp hc hk
  · next hk => exact nameStatement_reads hp hc (Or.inl hk)
  · refine reads_peek ?_
    split
    · next hw => exact nameStatement_reads hp hc (Or.inr hw)
    · exact reads_refuse

end

theorem statement_parses : ∀ depth, Parses (statement depth) .statement
  | 0 => fun _ _ => reads_tooDeep
  | depth + 1 => statementStep_parses (primary_parses depth) (statement_parses depth)

/-- **What is accepted is derived**: a program that is parsed from a closed list is derived from
    the tokens before the end of input. -/
theorem program_reads (depth : Nat) (hc : c.Closed) :
    Reads (program depth) c fun ts next t => next = .endOfInput ∧ Derives .program ts next t := by
  unfold program
  refine reads_remaining ?_
  refine (statements_reads (statement_parses depth) _ hc (Nat.lt_succ_self _)).bind
    fun items ts c₁ _ ⟨hitems, hk⟩ => ?_
  have hend : c₁.current.kind = .endOfInput := by simpa using hk
  refine reads_pure ⟨hend, ?_⟩
  rw [List.append_nil, hend]
  exact .program (hend ▸ hitems)

end BoxScript.Grammar
