/-
  What the grammar derives is accepted.

  `Accepts` says for each form what its parser does with derived tokens: it gives the derived
  tree, unless the limit on nesting is smaller than the number of tokens.  Chains and names are
  derived from the left while their loops go on to the right, so for the loops it says what is
  left to do after the derived part.  The proof is by induction on the derivation
  (`Derives.accepts`), with one lemma for each rule.
-/
import BoxScript.Proofs.Grammar.Soundness

namespace BoxScript.Grammar

open Parse

/-- The parser of what a chain joins. -/
def Chain.operandParser : Chain → Parse Tree → Parse Tree
  | expression, p | comparison, p => p
  | condition, p => Grammar.comparison p
  | grouped, p => Grammar.expression p

/-- The parser of a chain. -/
def Chain.parser (k : Chain) (p : Parse Tree) : Parse Tree :=
  Grammar.chain (k.operandParser p) k.joins k.join

/-- What the parser of a form does at `c`, if the form is derived from the tokens up to `c'`. -/
def Accepts (depth : Nat) (form : Form) (ts : List Token) (t : Tree) (c c' : Cursor) : Prop :=
  match form with
  | .primary => Yields (depth < ts.length) (primary depth) c t c'
  | .named => ∀ {short : Prop} {b : Tree} {c''}, (depth + 1 < ts.length → short) →
      (∀ rounds, c'.later.length ≤ rounds →
        Yields short (suffixes (primary depth) rounds t) c' b c'') →
      Yields short (named (primary depth) c.current.text) c.next b c''
  | .links k => ∀ {short : Prop} {b : Tree} {c''}, (depth < ts.length → short) →
      (∀ rounds, c'.later.length ≤ rounds →
        Yields short (chainRest (k.operandParser (primary depth)) k.joins k.join rounds t)
          c' b c'') →
      Yields short (k.parser (primary depth)) c b c''
  | .chain k => Yields (depth < ts.length) (k.parser (primary depth)) c t c'
  | .array => Yields (depth + 1 < ts.length) (arrayLiteral (primary depth)) c t c'
  | .elements => ∀ items, t = .list items → ∀ rounds, c.later.length < rounds →
      Yields (depth < ts.length) (elements (primary depth) rounds) c items c'
  | .arguments => ∀ args, t = .list args → ∀ rounds, c.later.length < rounds →
      Yields (depth < ts.length) (arguments (primary depth) rounds) c args c'
  | .parameters => ∀ params, t = .list params → ∀ rounds, c.later.length < rounds →
      Yields False (parameters rounds) c params c'
  | .statement => Yields (depth < ts.length) (statement depth) c t c'
  | .body => ∀ items, t = .list items → ∀ closes : Kind → Bool,
      closes c'.current.kind = true → (∀ k, startsStatement k = true → closes k = false) →
      ∀ rounds, c.later.length < rounds →
        Yields (depth < ts.length) (statements (statement depth) closes rounds) c items c'
  | .program => Yields (depth < ts.length) (program depth) c t c'

/-- The tokens are accepted at every depth and place where they lead to a token of kind
    `next`. -/
def Accepted (form : Form) (ts : List Token) (next : Kind) (t : Tree) : Prop :=
  ∀ depth c c', c.Spans ts c' → c'.current.kind = next → Accepts depth form ts t c c'

variable {depth : Nat} {c c' : Cursor} {ts ts' : List Token} {next : Kind} {t : Tree}

theorem spans_single {tok : Token} (h : c.Spans [tok] c') : c.current = tok ∧ c.next = c' :=
  ⟨h.cons.1, Cursor.eq_of_spans_nil h.cons.2.2⟩

/-! ## Chains -/

theorem accepted_operand {k : Chain} (h : Accepted k.operand ts next t) (hs : c.Spans ts c')
    (hn : c'.current.kind = next) :
    Yields (depth < ts.length) (k.operandParser (primary depth)) c t c' := by
  have := h depth c c' hs hn
  cases k <;> exact this

theorem first_accepted {k : Chain} (h : Accepted k.operand ts next t) :
    Accepted (.links k) ts next t := by
  intro depth c c' hs hn short b c'' hshort hrest
  unfold Chain.parser chain
  refine ((accepted_operand h hs hn).imp hshort).bind (yields_remaining ?_)
  exact hrest _ (Nat.le_refl _)

theorem joined_accepted {k : Chain} {op : Token} {left right : Tree}
    (h : Accepted (.links k) ts op.kind left) (ho : k.joins op.kind = true)
    (h' : Accepted k.operand ts' next right) :
    Accepted (.links k) (ts ++ op :: ts') next (k.join (.text op.text) left right) := by
  intro depth c c' hs hn short b c'' hshort hrest
  simp only [List.length_append, List.length_cons] at hshort
  obtain ⟨c₁, hs₁, hs₂⟩ := hs.split
  obtain ⟨hop, -, hs₃⟩ := hs₂.cons
  refine h depth c c₁ hs₁ (by rw [hop]) (fun hd => hshort (by omega)) fun rounds hr => ?_
  have hlen := hs₂.length
  simp only [List.length_cons] at hlen
  cases rounds with
  | zero => omega
  | succ rounds =>
    unfold chainRest
    refine yields_kind ?_
    rw [hop, if_pos ho]
    refine yields_advance_bind ?_
    rw [hop]
    refine ((accepted_operand h' hs₃ hn).imp fun hd => hshort (by omega)).bind ?_
    exact hrest _ (by omega)

theorem chain_accepted {k : Chain} (h : Accepted (.links k) ts next t)
    (hn : k.joins next = false) : Accepted (.chain k) ts next t := by
  intro depth c c' hs hnext
  refine h depth c c' hs hnext id fun rounds _ => ?_
  cases rounds with
  | zero => exact yields_pure
  | succ rounds =>
    unfold chainRest
    refine yields_kind ?_
    rw [hnext, hn]
    exact yields_pure

theorem accepted_expression (h : Accepted (.chain .expression) ts next t) (hs : c.Spans ts c')
    (hn : c'.current.kind = next) :
    Yields (depth < ts.length) (expression (primary depth)) c t c' := h depth c c' hs hn

theorem accepted_condition (h : Accepted (.chain .condition) ts next t) (hs : c.Spans ts c')
    (hn : c'.current.kind = next) :
    Yields (depth < ts.length) (condition (primary depth)) c t c' := h depth c c' hs hn

/-! ## Lists in brackets -/

/-- What begins a primary closes nothing and separates nothing. -/
theorem ne_of_startsPrimary {k : Kind} (h : startsPrimary k = true) :
    k ≠ .closeArray ∧ k ≠ .endParams ∧ k ≠ .endOfInput ∧ k ≠ .comma ∧ k ≠ .endKw := by
  refine ⟨?_, ?_, ?_, ?_, ?_⟩ <;> rintro rfl <;> cases h

theorem skipSeparator_yields {short : Prop} (h : Separator c'.current.kind ts)
    (hs : c.Spans ts c') : Yields short skipSeparator c ⟨⟩ c' := by
  unfold skipSeparator
  refine yields_kind ?_
  cases h with
  | absent h =>
    obtain rfl := Cursor.eq_of_spans_nil hs
    rw [if_neg]
    · exact yields_pure
    · rintro (hk | ⟨hk, hk'⟩)
      · rw [hk] at h
        rcases h with h | h <;> cases h
      · rcases h with h | h
        · exact hk h
        · rw [h] at hk'; cases hk'
  | present h =>
    obtain ⟨rfl, rfl⟩ := spans_single hs
    rw [if_pos (Or.inr ⟨h.1, by rw [h.2.2]; rfl⟩)]
    exact ⟨rfl, rfl⟩

theorem noElement_accepted {closing : Token} (hk : closing.kind = .closeArray) :
    Accepted .elements [closing] next (.list []) := by
  rintro depth c c' hs hn items ⟨⟩ rounds hr
  obtain ⟨rfl, rfl⟩ := spans_single hs
  cases rounds with
  | zero => omega
  | succ rounds =>
    unfold elements
    refine yields_kind ?_
    rw [hk]
    exact yields_drop yields_pure

theorem element_accepted {sep : List Token} {items : List Tree}
    (hd : Derives (.chain .expression) ts (leading (sep ++ ts') next) t)
    (h : Accepted (.chain .expression) ts (leading (sep ++ ts') next) t)
    (hsep : Separator (leading ts' next) sep) (h' : Accepted .elements ts' next (.list items)) :
    Accepted .elements (ts ++ (sep ++ ts')) next (.list (t :: items)) := by
  rintro depth c c' hs rfl _ ⟨⟩ rounds hr
  simp only [List.length_append]
  obtain ⟨c₁, hs₁, hrest⟩ := hs.split
  obtain ⟨c₂, hs₂, hs₃⟩ := hrest.split
  obtain ⟨tok, rest, rfl, hb⟩ := hd.begins rfl
  have hlen₁ := hs₁.length
  have hlen₂ := hs₂.length
  simp only [List.length_cons] at hlen₁
  cases rounds with
  | zero => omega
  | succ rounds =>
    unfold elements
    refine yields_kind ?_
    rw [hs₁.cons.1]
    obtain ⟨hclose, -, hend, -, -⟩ := ne_of_startsPrimary hb
    split
    · next hk => exact absurd hk hclose
    · next hk => exact absurd hk hend
    · refine ((accepted_expression h hs₁ hrest.leading.symm).imp fun hd => by omega).bind ?_
      refine (skipSeparator_yields (by rw [← hs₃.leading]; exact hsep) hs₂).bind ?_
      refine ((h' depth c₂ c' hs₃ rfl items rfl rounds (by omega)).imp fun hd => by omega).bind ?_
      exact yields_pure

theorem array_accepted {opening : Token} {items : List Tree} (ho : opening.kind = .openArray)
    (h : Accepted .elements ts next (.list items)) :
    Accepted .array (opening :: ts) next (.arrayLiteral (.list items)) := by
  intro depth c c' hs hn
  obtain ⟨rfl, -, hs₁⟩ := hs.cons
  simp only [Accepts, List.length_cons]
  unfold arrayLiteral
  refine yields_take ho (yields_remaining ?_)
  refine ((h depth _ c' hs₁ hn items rfl _ (Nat.lt_succ_self _)).imp fun hd => by omega).bind ?_
  exact yields_pure

theorem noArgument_accepted {closing : Token} (hk : closing.kind = .endParams) :
    Accepted .arguments [closing] next (.list []) := by
  rintro depth c c' hs hn items ⟨⟩ rounds hr
  obtain ⟨rfl, rfl⟩ := spans_single hs
  cases rounds with
  | zero => omega
  | succ rounds =>
    unfold arguments
    refine yields_kind ?_
    rw [hk]
    exact yields_drop yields_pure

theorem argument_accepted {sep : List Token} {args : List Tree}
    (hd : Derives (.chain .expression) ts (leading (sep ++ ts') next) t)
    (h : Accepted (.chain .expression) ts (leading (sep ++ ts') next) t)
    (hsep : Optional .comma sep) (hd' : Derives .arguments ts' next (.list args))
    (h' : Accepted .arguments ts' next (.list args)) :
    Accepted .arguments (ts ++ (sep ++ ts')) next (.list (t :: args)) := by
  rintro depth c c' hs rfl _ ⟨⟩ rounds hr
  simp only [List.length_append]
  obtain ⟨c₁, hs₁, hrest⟩ := hs.split
  obtain ⟨c₂, hs₂, hs₃⟩ := hrest.split
  obtain ⟨tok, rest, rfl, hb⟩ := hd.begins rfl
  have hlen₁ := hs₁.length
  have hlen₂ := hs₂.length
  simp only [List.length_cons] at hlen₁
  -- what comes after the comma, if there is one, is no comma
  have hcomma : c₂.current.kind ≠ .comma := by
    obtain ⟨tok', rest', rfl, hb'⟩ := hd'.begins rfl
    rw [hs₃.cons.1]
    rcases hb' with hb' | hb'
    · simp [hb']
    · exact (ne_of_startsPrimary hb').2.2.2.1
  cases rounds with
  | zero => omega
  | succ rounds =>
    unfold arguments
    refine yields_kind ?_
    rw [hs₁.cons.1]
    obtain ⟨-, hclose, hend, -, -⟩ := ne_of_startsPrimary hb
    split
    · next hk => exact absurd hk hclose
    · next hk => exact absurd hk hend
    · refine ((accepted_expression h hs₁ hrest.leading.symm).imp fun hd => by omega).bind ?_
      refine (yields_skipIf hsep hs₂ hcomma).bind ?_
      refine ((h' depth c₂ c' hs₃ rfl args rfl rounds (by omega)).imp fun hd => by omega).bind ?_
      exact yields_pure

/-! ## Names -/

theorem name_accepted {name : Token} :
    Accepted .named [name] next (.identifier (.text name.text)) := by
  intro depth c c' hs hn short b c'' hshort hrest
  obtain ⟨rfl, rfl⟩ := spans_single hs
  exact yields_remaining (hrest _ (Nat.le_refl _))

theorem index_accepted {opening closing : Token} {base : Tree}
    (h : Accepted .named ts .openArray base) (ho : opening.kind = .openArray)
    (h' : Accepted (.chain .expression) ts' .closeArray t) (hc : closing.kind = .closeArray) :
    Accepted .named (ts ++ opening :: (ts' ++ [closing])) next (.arrayAccess base t) := by
  intro depth c c' hs hn short b c'' hshort hrest
  simp only [List.length_append, List.length_cons] at hshort
  obtain ⟨c₁, hs₁, hs₂⟩ := hs.split
  obtain ⟨hopen, -, hinner⟩ := hs₂.cons
  obtain ⟨c₃, hs₃, hs₄⟩ := hinner.split
  obtain ⟨hclose, rfl⟩ := spans_single hs₄
  refine h depth c c₁ hs₁ (by rw [hopen, ho]) (fun hd => hshort (by omega)) fun rounds hr => ?_
  have hlen := hs₂.length
  simp only [List.length_cons, List.length_append] at hlen
  cases rounds with
  | zero => omega
  | succ rounds =>
    unfold suffixes
    refine yields_kind ?_
    rw [hopen, ho]
    refine yields_drop ?_
    have hkind : c₃.current.kind = .closeArray := by rw [hclose, hc]
    refine ((accepted_expression h' hs₃ hkind).imp fun hd => hshort (by omega)).bind ?_
    exact yields_take hkind (hrest _ (by omega))

theorem call_accepted {opening : Token} {base : Tree} {args : List Tree}
    (h : Accepted .named ts .beginParams base) (ho : opening.kind = .beginParams)
    (h' : Accepted .arguments ts' next (.list args)) :
    Accepted .named (ts ++ opening :: ts') next (.callExpression base (.list args)) := by
  intro depth c c' hs hn short b c'' hshort hrest
  simp only [List.length_append, List.length_cons] at hshort
  obtain ⟨c₁, hs₁, hs₂⟩ := hs.split
  obtain ⟨hopen, -, hs₃⟩ := hs₂.cons
  refine h depth c c₁ hs₁ (by rw [hopen, ho]) (fun hd => hshort (by omega)) fun rounds hr => ?_
  have hlen := hs₂.length
  simp only [List.length_cons] at hlen
  cases rounds with
  | zero => omega
  | succ rounds =>
    unfold suffixes
    refine yields_kind ?_
    rw [hopen, ho]
    refine yields_drop (yields_remaining ?_)
    have hargs := h' depth _ c' hs₃ hn args rfl _ (Nat.lt_succ_self _)
    exact (hargs.imp fun hd => hshort (by omega)).bind (hrest _ (by omega))

/-- A name ends before a token that does not go on with it. -/
theorem suffixes_stop {short : Prop} {p : Parse Tree} (h : ¬c.current.kind.Opens) (rounds : Nat) :
    Yields short (suffixes p rounds t) c t c := by
  cases rounds with
  | zero => exact yields_pure
  | succ rounds =>
    unfold suffixes
    refine yields_kind ?_
    split
    · next hk => exact absurd (Or.inl hk) h
    · next hk => exact absurd (Or.inr hk) h
    · exact yields_pure

theorem accepted_named (h : Accepted .named ts next t) (hs : c.Spans ts c')
    (hn : c'.current.kind = next) (ho : ¬next.Opens) :
    Yields (depth + 1 < ts.length) (named (primary depth) c.current.text) c.next t c' :=
  h depth c c' hs hn id fun rounds _ => suffixes_stop (hn ▸ ho) rounds

/-! ## Primaries -/

/-- With no depth at all a primary is too deep; else it is one step. -/
theorem accepted_primary (hpos : 0 < ts.length)
    (h : ∀ depth c c', c.Spans ts c' → c'.current.kind = next →
      Yields (depth + 1 < ts.length) (primaryStep (primary depth)) c t c') :
    Accepted .primary ts next t := by
  intro depth c c' hs hn
  cases depth with
  | zero => exact yields_tooDeep hpos
  | succ depth => exact h depth c c' hs hn

theorem named_accepted {name : Token} (hname : name.IsName)
    (h : Accepted .named (name :: ts) next t) (hn : ¬next.Opens)
    (hm : name.kind = .minus → leading ts next = .beginParams) :
    Accepted .primary (name :: ts) next t := by
  refine accepted_primary (Nat.succ_pos _) fun depth c c' hs hnext => ?_
  obtain ⟨rfl, hk, hs₁⟩ := hs.cons
  unfold primaryStep
  refine yields_get ?_
  have hlook := hs.cons_lookahead
  rw [if_pos (atName_iff.2 ⟨hname, fun hminus => by rw [hlook, hnext]; exact hm hminus⟩)]
  exact yields_advance_bind (accepted_named h hs hnext hn)

theorem not_atName {c : Cursor} (h : startsName c.current.kind = false) : ¬atName c = true := by
  intro hat
  rw [startsName_of_isName (atName_iff.1 hat).1] at h
  cases h

theorem number_accepted {tok : Token} {x : Float} (hk : tok.kind = .number)
    (hx : Number.read? tok.text = some x) :
    Accepted .primary [tok] next (.numberLiteral (.num x)) := by
  refine accepted_primary Nat.one_pos fun depth c c' hs _ => ?_
  obtain ⟨rfl, rfl⟩ := spans_single hs
  unfold primaryStep
  refine yields_get ?_
  rw [if_neg (not_atName (by rw [hk]; rfl))]
  refine yields_kind ?_
  rw [hk]
  refine yields_advance_bind ?_
  simp only [hx]
  exact yields_pure

theorem string_accepted {tok : Token} (hk : tok.kind = .string) :
    Accepted .primary [tok] next (.stringLiteral (.text tok.text)) := by
  refine accepted_primary Nat.one_pos fun depth c c' hs _ => ?_
  obtain ⟨rfl, rfl⟩ := spans_single hs
  unfold primaryStep
  refine yields_get ?_
  rw [if_neg (not_atName (by rw [hk]; rfl))]
  refine yields_kind ?_
  rw [hk]
  exact yields_advance_bind yields_pure

theorem boolean_accepted {tok : Token} (hk : tok.kind = .boolean) :
    Accepted .primary [tok] next (.booleanLiteral (.bool (tok.text == "true"))) := by
  refine accepted_primary Nat.one_pos fun depth c c' hs _ => ?_
  obtain ⟨rfl, rfl⟩ := spans_single hs
  unfold primaryStep
  refine yields_get ?_
  rw [if_neg (not_atName (by rw [hk]; rfl))]
  refine yields_kind ?_
  rw [hk]
  exact yields_advance_bind yields_pure

theorem literal_accepted (hd : Derives .array ts next t) (h : Accepted .array ts next t) :
    Accepted .primary ts next t := by
  refine accepted_primary (hd.length_pos rfl) fun depth c c' hs hn => ?_
  obtain ⟨tok, rest, rfl, hk⟩ := hd.begins rfl
  have hcur : c.current.kind = .openArray := by rw [hs.cons.1]; exact hk
  unfold primaryStep
  refine yields_get ?_
  rw [if_neg (not_atName (by rw [hcur]; rfl))]
  refine yields_kind ?_
  rw [hcur]
  exact h depth c c' hs hn

theorem group_accepted {opening closing : Token} (ho : opening.kind = .beginParams)
    (h : Accepted (.chain .grouped) ts .endParams t) (hc : closing.kind = .endParams) :
    Accepted .primary (opening :: (ts ++ [closing])) next t := by
  refine accepted_primary (Nat.succ_pos _) fun depth c c' hs _ => ?_
  simp only [List.length_cons, List.length_append]
  obtain ⟨rfl, -, hinner⟩ := hs.cons
  obtain ⟨c₂, hs₁, hs₂⟩ := hinner.split
  obtain ⟨rfl, rfl⟩ := spans_single hs₂
  unfold primaryStep
  refine yields_get ?_
  rw [if_neg (not_atName (by rw [ho]; rfl))]
  refine yields_kind ?_
  rw [ho]
  have hchain : Yields (depth < ts.length) (Chain.grouped.parser (primary depth)) c.next t c₂ :=
    h depth _ _ hs₁ hc
  refine yields_drop ((hchain.imp fun hd => by omega).bind ?_)
  exact yields_take hc yields_pure

theorem negative_accepted {sign : Token} (hk : sign.kind = .minus)
    (hw : sign.isWordOperator = true → leading ts next ≠ .beginParams)
    (h : Accepted .primary ts next t) :
    Accepted .primary (sign :: ts) next (.unaryExpression (.text sign.text) t) := by
  refine accepted_primary (Nat.succ_pos _) fun depth c c' hs hn => ?_
  simp only [List.length_cons]
  obtain ⟨rfl, hend, hs₁⟩ := hs.cons
  have hlook := hs.cons_lookahead
  have hat : ¬atName c = true := by
    intro hat
    obtain ⟨hname, hm⟩ := atName_iff.1 hat
    rcases hname with hid | hword
    · rw [hk] at hid; cases hid
    · rw [hlook, hn] at hm
      exact hw hword (hm hk)
  unfold primaryStep
  refine yields_get ?_
  rw [if_neg hat]
  refine yields_kind ?_
  rw [hk]
  refine yields_advance_bind ?_
  have hinner : Yields (depth < ts.length) (primary depth) c.next t c' := h depth _ c' hs₁ hn
  exact (hinner.imp fun hd => by omega).bind yields_pure

theorem not_accepted {kw : Token} (hk : kw.kind = .notKw) (h : Accepted .primary ts next t) :
    Accepted .primary (kw :: ts) next (.logicalExpression (.text "not") t .null) := by
  refine accepted_primary (Nat.succ_pos _) fun depth c c' hs hn => ?_
  simp only [List.length_cons]
  obtain ⟨rfl, -, hs₁⟩ := hs.cons
  unfold primaryStep
  refine yields_get ?_
  rw [if_neg (not_atName (by rw [hk]; rfl))]
  refine yields_kind ?_
  rw [hk]
  have hinner : Yields (depth < ts.length) (primary depth) c.next t c' := h depth _ c' hs₁ hn
  exact yields_drop ((hinner.imp fun hd => by omega).bind yields_pure)

/-! ## Parameters and bodies -/

theorem noParameter_accepted {closing : Token} (hk : closing.kind = .endParams) :
    Accepted .parameters [closing] next (.list []) := by
  rintro depth c c' hs hn items ⟨⟩ rounds hr
  obtain ⟨rfl, rfl⟩ := spans_single hs
  cases rounds with
  | zero => omega
  | succ rounds =>
    unfold parameters
    refine yields_kind ?_
    rw [if_pos hk]
    exact yields_drop yields_pure

theorem parameter_accepted {name : Token} {sep : List Token} {params : List Tree}
    (hname : name.IsName) (hsep : Optional .comma sep)
    (hd : Derives .parameters ts next (.list params))
    (h : Accepted .parameters ts next (.list params)) :
    Accepted .parameters (name :: (sep ++ ts)) next (.list (.text name.text :: params)) := by
  rintro depth c c' hs hn _ ⟨⟩ rounds hr
  have hlen := hs.length
  simp only [List.length_cons, List.length_append] at hlen
  obtain ⟨rfl, -, hrest⟩ := hs.cons
  obtain ⟨c₂, hs₂, hs₃⟩ := hrest.split
  have hlen₃ := hs₃.length
  have hcomma : c₂.current.kind ≠ .comma := by
    obtain ⟨tok, rest, rfl, hb⟩ := hd.begins rfl
    rw [hs₃.cons.1]
    rcases hb with hb | hb
    · simp [hb]
    · exact (ne_of_startsPrimary (startsPrimary_of_isName hb)).2.2.2.1
  cases rounds with
  | zero => omega
  | succ rounds =>
    unfold parameters
    refine yields_kind ?_
    rw [if_neg (ne_of_startsPrimary (startsPrimary_of_isName hname)).2.1]
    refine yields_name hname ((yields_skipIf hsep hs₂ hcomma).bind ?_)
    exact (h depth c₂ c' hs₃ hn params rfl rounds (by omega)).bind yields_pure

theorem empty_accepted : Accepted .body [] next (.list []) := by
  rintro depth c c' hs hn _ ⟨⟩ closes hclose hstart rounds hr
  obtain rfl := Cursor.eq_of_spans_nil hs
  cases rounds with
  | zero => omega
  | succ rounds =>
    unfold statements
    refine yields_kind ?_
    rw [if_pos hclose]
    exact yields_pure

theorem more_accepted {items : List Tree} (hd : Derives .statement ts (leading ts' next) t)
    (h : Accepted .statement ts (leading ts' next) t)
    (h' : Accepted .body ts' next (.list items)) :
    Accepted .body (ts ++ ts') next (.list (t :: items)) := by
  rintro depth c c' hs rfl _ ⟨⟩ closes hclose hstart rounds hr
  simp only [List.length_append]
  obtain ⟨c₁, hs₁, hs₂⟩ := hs.split
  obtain ⟨tok, rest, rfl, hb⟩ := hd.begins rfl
  have hlen := hs₁.length
  simp only [List.length_cons] at hlen
  cases rounds with
  | zero => omega
  | succ rounds =>
    unfold statements
    refine yields_kind ?_
    have hkind : startsStatement c.current.kind = true := by rw [hs₁.cons.1]; exact hb
    rw [hstart _ hkind, if_neg (by simp), if_neg (by rintro he; rw [he] at hkind; cases hkind)]
    have hfirst : Yields (depth < (tok :: rest).length) (statement depth) c t c₁ :=
      h depth c c₁ hs₁ hs₂.leading.symm
    refine (hfirst.imp fun hd => by omega).bind ?_
    have hmore := h' depth c₁ c' hs₂ rfl items rfl closes hclose hstart rounds (by omega)
    exact (hmore.imp fun hd => by omega).bind yields_pure

/-- A body and the token that closes it. -/
theorem accepted_body {items : List Tree} {closes : Kind → Bool}
    (h : Accepted .body ts c'.current.kind (.list items)) (hs : c.Spans ts c')
    (hclose : closes c'.current.kind = true)
    (hstart : ∀ k, startsStatement k = true → closes k = false) :
    Yields (depth < ts.length) (body (statement depth) closes) c
      (.block (.list items), c'.current.kind) c'.next := by
  unfold body
  refine yields_remaining ?_
  refine (h depth c c' hs rfl items rfl closes hclose hstart _ (Nat.lt_succ_self _)).bind ?_
  exact yields_advance_bind yields_pure

/-- A body does not begin with `doIt`, and neither does the `end` after it. -/
theorem leading_body_ne {items : List Tree} {stop : Token} {k : Kind}
    (h : Derives .body ts .endKw (.list items)) (hk : stop.kind = .endKw) :
    leading (ts ++ [stop]) k ≠ .doItKw := by
  cases h with
  | empty =>
    show stop.kind ≠ .doItKw
    rw [hk]
    simp
  | more h _ =>
    obtain ⟨tok, rest, rfl, hb⟩ := h.begins rfl
    show tok.kind ≠ .doItKw
    intro he
    have hb : startsStatement tok.kind = true := hb
    rw [he] at hb
    cases hb

theorem endKw_closes {k : Kind} (h : startsStatement k = true) :
    decide (k = .endKw) = false := by
  refine decide_eq_false ?_
  rintro rfl
  cases h

/-- A body that only `end` closes. -/
theorem accepted_endBody {items : List Tree} {stop : Token}
    (h : Accepted .body ts .endKw (.list items)) (hs : c.Spans (ts ++ [stop]) c')
    (hk : stop.kind = .endKw) :
    Yields (depth < ts.length) (body (statement depth) fun k => k = .endKw) c
      (.block (.list items), .endKw) c' := by
  obtain ⟨c₁, hs₁, hs₂⟩ := hs.split
  obtain ⟨rfl, rfl⟩ := spans_single hs₂
  have hbody : Yields (depth < ts.length) (body (statement depth) fun k => k = .endKw) c
      (.block (.list items), c₁.current.kind) c₁.next :=
    accepted_body (by rw [hk]; exact h) hs₁ (by simp [hk]) fun k hk => endKw_closes hk
  rwa [hk] at hbody

/-! ## Statements -/

/-- With no depth at all a statement is too deep; else it is one step. -/
theorem accepted_statement (hpos : 0 < ts.length)
    (h : ∀ depth c c', c.Spans ts c' → c'.current.kind = next →
      Yields (depth + 1 < ts.length) (statementStep (primary depth) (statement depth)) c t c') :
    Accepted .statement ts next t := by
  intro depth c c' hs hn
  cases depth with
  | zero => exact yields_tooDeep hpos
  | succ depth => exact h depth c c' hs hn

theorem box_accepted {kw name stop : Token} (hk : kw.kind = .boxKw) (hname : name.IsName)
    (hstop : stop.kind = .endKw) : Accepted .statement [kw, name, stop] next
      (.variableDeclaration (.text name.text) .null (.bool false) (.bool false)) := by
  refine accepted_statement (Nat.succ_pos _) fun depth c c' hs _ => ?_
  obtain ⟨rfl, -, hs₁⟩ := hs.cons
  obtain ⟨rfl, -, hs₂⟩ := hs₁.cons
  obtain ⟨rfl, rfl⟩ := spans_single hs₂
  unfold statementStep
  refine yields_kind ?_
  rw [hk]
  refine yields_drop (yields_name hname (yields_kind ?_))
  rw [if_pos hstop]
  exact yields_take hstop yields_pure

theorem boxSet_accepted {kw name eq stop : Token} (hk : kw.kind = .boxKw) (hname : name.IsName)
    (he : eq.kind = .equals) (h : Accepted (.chain .expression) ts .endKw t)
    (hstop : stop.kind = .endKw) :
    Accepted .statement (kw :: name :: eq :: (ts ++ [stop])) next
      (.variableDeclaration (.text name.text) t (.bool false) (.bool false)) := by
  refine accepted_statement (Nat.succ_pos _) fun depth c c' hs _ => ?_
  simp only [List.length_cons, List.length_append]
  obtain ⟨rfl, -, hs₁⟩ := hs.cons
  obtain ⟨rfl, -, hs₂⟩ := hs₁.cons
  obtain ⟨rfl, -, hs₃⟩ := hs₂.cons
  obtain ⟨c₄, hs₄, hs₅⟩ := hs₃.split
  obtain ⟨rfl, rfl⟩ := spans_single hs₅
  unfold statementStep
  refine yields_kind ?_
  rw [hk]
  refine yields_drop (yields_name hname (yields_kind ?_))
  rw [if_neg (by simp [he])]
  refine yields_take he ?_
  refine ((accepted_expression h hs₄ hstop).imp fun hd => by omega).bind ?_
  exact yields_take hstop yields_pure

theorem noChange_accepted {kw name eq stop : Token} (hk : kw.kind = .noChangeKw)
    (hname : name.IsName) (he : eq.kind = .equals)
    (h : Accepted (.chain .expression) ts .endKw t) (hstop : stop.kind = .endKw) :
    Accepted .statement (kw :: name :: eq :: (ts ++ [stop])) next
      (.variableDeclaration (.text name.text) t (.bool true) (.bool false)) := by
  refine accepted_statement (Nat.succ_pos _) fun depth c c' hs _ => ?_
  simp only [List.length_cons, List.length_append]
  obtain ⟨rfl, -, hs₁⟩ := hs.cons
  obtain ⟨rfl, -, hs₂⟩ := hs₁.cons
  obtain ⟨rfl, -, hs₃⟩ := hs₂.cons
  obtain ⟨c₄, hs₄, hs₅⟩ := hs₃.split
  obtain ⟨rfl, rfl⟩ := spans_single hs₅
  unfold statementStep
  refine yields_kind ?_
  rw [hk]
  refine yields_drop (yields_name hname (yields_take he ?_))
  refine ((accepted_expression h hs₄ hstop).imp fun hd => by omega).bind ?_
  exact yields_take hstop yields_pure

theorem boxes_accepted {kw name eq stop : Token} (hk : kw.kind = .boxesKw) (hname : name.IsName)
    (he : eq.kind = .equals) (h : Accepted .array ts .endKw t) (hstop : stop.kind = .endKw) :
    Accepted .statement (kw :: name :: eq :: (ts ++ [stop])) next
      (.variableDeclaration (.text name.text) t (.bool false) (.bool true)) := by
  refine accepted_statement (Nat.succ_pos _) fun depth c c' hs _ => ?_
  simp only [List.length_cons, List.length_append]
  obtain ⟨rfl, -, hs₁⟩ := hs.cons
  obtain ⟨rfl, -, hs₂⟩ := hs₁.cons
  obtain ⟨rfl, -, hs₃⟩ := hs₂.cons
  obtain ⟨c₄, hs₄, hs₅⟩ := hs₃.split
  obtain ⟨rfl, rfl⟩ := spans_single hs₅
  unfold statementStep
  refine yields_kind ?_
  rw [hk]
  refine yields_drop (yields_name hname (yields_take he ?_))
  have harray : Yields (depth + 1 < ts.length) (arrayLiteral (primary depth)) _ t c₄ :=
    h depth _ c₄ hs₄ hstop
  exact (harray.imp fun hd => by omega).bind (yields_take hstop yields_pure)

theorem function_accepted {kw name opening doIt stop : Token} {ps : List Token}
    {params items : List Tree} (hk : kw.kind = .functionKw) (hname : name.IsName)
    (ho : opening.kind = .beginParams) (hp : Accepted .parameters ps .doItKw (.list params))
    (hd : doIt.kind = .doItKw) (h : Accepted .body ts .endKw (.list items))
    (hstop : stop.kind = .endKw) :
    Accepted .statement (kw :: name :: opening :: (ps ++ doIt :: (ts ++ [stop]))) next
      (.functionDeclaration (.text name.text) (.list params) (.block (.list items))) := by
  refine accepted_statement (Nat.succ_pos _) fun depth c c' hs _ => ?_
  simp only [List.length_cons, List.length_append]
  obtain ⟨rfl, -, hs₁⟩ := hs.cons
  obtain ⟨rfl, -, hs₂⟩ := hs₁.cons
  obtain ⟨rfl, -, hs₃⟩ := hs₂.cons
  obtain ⟨c₄, hs₄, hs₅⟩ := hs₃.split
  obtain ⟨rfl, -, hs₆⟩ := hs₅.cons
  unfold statementStep
  refine yields_kind ?_
  rw [hk]
  refine yields_drop (yields_name hname (yields_take ho (yields_remaining ?_)))
  have hparams := hp depth _ c₄ hs₄ hd params rfl _ (Nat.lt_succ_self _)
  refine (hparams.imp False.elim).bind (yields_take hd ?_)
  exact ((accepted_endBody h hs₆ hstop).imp fun hd => by omega).bind yields_pure

/-- A condition with the keyword before it. -/
theorem accepted_test {negated : Kind} (h : Accepted (.chain .condition) ts next t)
    (hs : c.next.Spans ts c') (hn : c'.current.kind = next) :
    Yields (depth < ts.length) (test (primary depth) negated) c
      (turned c.current.kind negated t) c' :=
  yields_advance_bind ((accepted_condition h hs hn).bind yields_pure)

/-- A body that `end` or `else` closes. -/
theorem accepted_ifBody {items : List Tree}
    (h : Accepted .body ts c'.current.kind (.list items)) (hs : c.Spans ts c')
    (hk : c'.current.kind = .endKw ∨ c'.current.kind = .elseKw) :
    Yields (depth < ts.length) (body (statement depth) fun k => k = .endKw ∨ k = .elseKw) c
      (.block (.list items), c'.current.kind) c'.next := by
  refine accepted_body h hs (decide_eq_true hk) fun k hk => decide_eq_false ?_
  rintro (rfl | rfl) <;> cases hk

theorem yields_ifStatement {short : Prop} {p st : Parse Tree}
    (hk : c.current.kind = .ifKw ∨ c.current.kind = .ifNotKw)
    (h : Yields short (ifStatement p st) c t c') : Yields short (statementStep p st) c t c' := by
  unfold statementStep
  refine yields_kind ?_
  rcases hk with hk | hk <;> rw [hk] <;> exact h

theorem yields_whileStatement {short : Prop} {p st : Parse Tree}
    (hk : c.current.kind = .whileKw ∨ c.current.kind = .whileNotKw)
    (h : Yields short (whileStatement p st) c t c') : Yields short (statementStep p st) c t c' := by
  unfold statementStep
  refine yields_kind ?_
  rcases hk with hk | hk <;> rw [hk] <;> exact h

theorem ifThen_accepted {kw doIt stop : Token} {items : List Tree}
    (hk : kw.kind = .ifKw ∨ kw.kind = .ifNotKw) (h : Accepted (.chain .condition) ts .doItKw t)
    (hd : doIt.kind = .doItKw) (h' : Accepted .body ts' .endKw (.list items))
    (hstop : stop.kind = .endKw) :
    Accepted .statement (kw :: (ts ++ doIt :: (ts' ++ [stop]))) next
      (.ifStatement (turned kw.kind .ifNotKw t) (.block (.list items)) .null) := by
  refine accepted_statement (Nat.succ_pos _) fun depth c c' hs _ => ?_
  simp only [List.length_cons, List.length_append]
  obtain ⟨rfl, -, hs₁⟩ := hs.cons
  obtain ⟨c₂, hs₂, hs₃⟩ := hs₁.split
  obtain ⟨rfl, -, hs₄⟩ := hs₃.cons
  obtain ⟨c₅, hs₅, hs₆⟩ := hs₄.split
  obtain ⟨rfl, rfl⟩ := spans_single hs₆
  refine yields_ifStatement hk ?_
  refine ((accepted_test h hs₂ hd).imp fun hd => by omega).bind (yields_take hd ?_)
  refine ((accepted_ifBody (hstop ▸ h') hs₅ (Or.inl hstop)).imp fun hd => by omega).bind ?_
  simp only [hstop]
  exact yields_pure

theorem ifElse_accepted {kw doIt els stop : Token} {opt ts'' : List Token}
    {items items' : List Tree} (hk : kw.kind = .ifKw ∨ kw.kind = .ifNotKw)
    (h : Accepted (.chain .condition) ts .doItKw t) (hd : doIt.kind = .doItKw)
    (h' : Accepted .body ts' .elseKw (.list items)) (he : els.kind = .elseKw)
    (hopt : Optional .doItKw opt) (hder : Derives .body ts'' .endKw (.list items'))
    (h'' : Accepted .body ts'' .endKw (.list items')) (hstop : stop.kind = .endKw) :
    Accepted .statement (kw :: (ts ++ doIt :: (ts' ++ els :: (opt ++ (ts'' ++ [stop]))))) next
      (.ifStatement (turned kw.kind .ifNotKw t) (.block (.list items))
        (.block (.list items'))) := by
  refine accepted_statement (Nat.succ_pos _) fun depth c c' hs _ => ?_
  simp only [List.length_cons, List.length_append]
  obtain ⟨rfl, -, hs₁⟩ := hs.cons
  obtain ⟨c₂, hs₂, hs₃⟩ := hs₁.split
  obtain ⟨rfl, -, hs₄⟩ := hs₃.cons
  obtain ⟨c₅, hs₅, hs₆⟩ := hs₄.split
  obtain ⟨rfl, -, hs₇⟩ := hs₆.cons
  obtain ⟨c₈, hs₈, hs₉⟩ := hs₇.split
  have hdoIt : c₈.current.kind ≠ .doItKw := by
    rw [← hs₉.leading]
    exact leading_body_ne hder hstop
  refine yields_ifStatement hk ?_
  refine ((accepted_test h hs₂ hd).imp fun hd => by omega).bind (yields_take hd ?_)
  refine ((accepted_ifBody (he ▸ h') hs₅ (Or.inr he)).imp fun hd => by omega).bind ?_
  simp only [he]
  refine (yields_skipIf hopt hs₈ hdoIt).bind ?_
  exact ((accepted_endBody h'' hs₉ hstop).imp fun hd => by omega).bind yields_pure

theorem whileDo_accepted {kw doIt stop : Token} {items : List Tree}
    (hk : kw.kind = .whileKw ∨ kw.kind = .whileNotKw)
    (h : Accepted (.chain .condition) ts .doItKw t) (hd : doIt.kind = .doItKw)
    (h' : Accepted .body ts' .endKw (.list items)) (hstop : stop.kind = .endKw) :
    Accepted .statement (kw :: (ts ++ doIt :: (ts' ++ [stop]))) next
      (.whileStatement (turned kw.kind .whileNotKw t) (.block (.list items))) := by
  refine accepted_statement (Nat.succ_pos _) fun depth c c' hs _ => ?_
  simp only [List.length_cons, List.length_append]
  obtain ⟨rfl, -, hs₁⟩ := hs.cons
  obtain ⟨c₂, hs₂, hs₃⟩ := hs₁.split
  obtain ⟨rfl, -, hs₄⟩ := hs₃.cons
  refine yields_whileStatement hk ?_
  refine ((accepted_test h hs₂ hd).imp fun hd => by omega).bind (yields_take hd ?_)
  exact ((accepted_endBody h' hs₄ hstop).imp fun hd => by omega).bind yields_pure

theorem forTo_accepted {kw name eq upTo doIt stop : Token} {ts'' : List Token} {start last : Tree}
    {items : List Tree} (hk : kw.kind = .forKw) (hname : name.IsName) (he : eq.kind = .equals)
    (h : Accepted (.chain .expression) ts .toKw start) (ht : upTo.kind = .toKw)
    (h' : Accepted (.chain .expression) ts' .doItKw last) (hd : doIt.kind = .doItKw)
    (h'' : Accepted .body ts'' .endKw (.list items)) (hstop : stop.kind = .endKw) :
    Accepted .statement
      (kw :: name :: eq :: (ts ++ upTo :: (ts' ++ doIt :: (ts'' ++ [stop])))) next
      (.forStatement (.text name.text) start last (.block (.list items))) := by
  refine accepted_statement (Nat.succ_pos _) fun depth c c' hs _ => ?_
  simp only [List.length_cons, List.length_append]
  obtain ⟨rfl, -, hs₁⟩ := hs.cons
  obtain ⟨rfl, -, hs₂⟩ := hs₁.cons
  obtain ⟨rfl, -, hs₃⟩ := hs₂.cons
  obtain ⟨c₄, hs₄, hs₅⟩ := hs₃.split
  obtain ⟨rfl, -, hs₆⟩ := hs₅.cons
  obtain ⟨c₇, hs₇, hs₈⟩ := hs₆.split
  obtain ⟨rfl, -, hs₉⟩ := hs₈.cons
  unfold statementStep
  refine yields_kind ?_
  rw [hk]
  refine yields_drop (yields_name hname (yields_take he ?_))
  refine ((accepted_expression h hs₄ ht).imp fun hd => by omega).bind (yields_take ht ?_)
  refine ((accepted_expression h' hs₇ hd).imp fun hd => by omega).bind (yields_take hd ?_)
  exact ((accepted_endBody h'' hs₉ hstop).imp fun hd => by omega).bind yields_pure

theorem returnNull_accepted {kw stop : Token} (hk : kw.kind = .returnKw)
    (hstop : stop.kind = .endKw) :
    Accepted .statement [kw, stop] next (.returnStatement .null) := by
  refine accepted_statement (Nat.succ_pos _) fun depth c c' hs _ => ?_
  obtain ⟨rfl, -, hs₁⟩ := hs.cons
  obtain ⟨rfl, rfl⟩ := spans_single hs₁
  unfold statementStep
  refine yields_kind ?_
  rw [hk]
  refine yields_drop (yields_kind ?_)
  rw [if_pos hstop]
  exact yields_take hstop yields_pure

theorem returnValue_accepted {kw stop : Token} (hk : kw.kind = .returnKw)
    (hder : Derives (.chain .expression) ts .endKw t)
    (h : Accepted (.chain .expression) ts .endKw t) (hstop : stop.kind = .endKw) :
    Accepted .statement (kw :: (ts ++ [stop])) next (.returnStatement t) := by
  refine accepted_statement (Nat.succ_pos _) fun depth c c' hs _ => ?_
  simp only [List.length_cons, List.length_append]
  obtain ⟨rfl, -, hs₁⟩ := hs.cons
  obtain ⟨c₂, hs₂, hs₃⟩ := hs₁.split
  obtain ⟨rfl, rfl⟩ := spans_single hs₃
  have hne : c.next.current.kind ≠ .endKw := by
    obtain ⟨tok, rest, rfl, hb⟩ := hder.begins rfl
    rw [hs₂.cons.1]
    exact (ne_of_startsPrimary hb).2.2.2.2
  unfold statementStep
  refine yields_kind ?_
  rw [hk]
  refine yields_drop (yields_kind ?_)
  rw [if_neg hne]
  refine ((accepted_expression h hs₂ hstop).imp fun hd => by omega).bind ?_
  exact yields_take hstop yields_pure

/-- A statement that begins with a name. -/
theorem ends_nameStatement {p st : Parse Tree} {Q : Tree → Cursor → Prop}
    {E : Obstacle → Cursor → Prop} (hn : c.current.IsName) (h : Ends (nameStatement p) c Q E) :
    Ends (statementStep p st) c Q E := by
  unfold statementStep
  rw [ends_kind]
  have hstart := startsName_of_isName hn
  split
  case h_11 => exact h
  case h_12 hid =>
    rw [ends_peek, if_pos (hn.resolve_left hid)]
    exact h
  -- no keyword is a name
  all_goals
    next hk =>
    rw [hk] at hstart
    cases hstart

theorem yields_nameStatement {short : Prop} {p st : Parse Tree} (hn : c.current.IsName)
    (h : Yields short (nameStatement p) c t c') : Yields short (statementStep p st) c t c' :=
  ends_nameStatement hn h

theorem assign_accepted {eq stop : Token} {target : Tree} (hder : Derives .named ts .equals target)
    (h : Accepted .named ts .equals target)
    (ht : (∃ x, target = .identifier x) ∨ ∃ a i, target = .arrayAccess a i)
    (he : eq.kind = .equals) (h' : Accepted (.chain .expression) ts' .endKw t)
    (hstop : stop.kind = .endKw) :
    Accepted .statement (ts ++ eq :: (ts' ++ [stop])) next (.assignmentExpression target t) := by
  refine accepted_statement (by simp only [List.length_append, List.length_cons]; omega)
    fun depth c c' hs _ => ?_
  simp only [List.length_cons, List.length_append]
  obtain ⟨c₁, hs₁, hs₂⟩ := hs.split
  obtain ⟨rfl, -, hs₃⟩ := hs₂.cons
  obtain ⟨c₄, hs₄, hs₅⟩ := hs₃.split
  obtain ⟨rfl, rfl⟩ := spans_single hs₅
  have hname : c.current.IsName := by
    obtain ⟨tok, rest, rfl, hb⟩ := hder.begins rfl
    rw [hs₁.cons.1]
    exact hb
  have htarget : isTarget target = true := by
    rcases ht with ⟨x, rfl⟩ | ⟨a, i, rfl⟩ <;> rfl
  have hopen : ¬Kind.equals.Opens := by simp [Kind.Opens]
  refine yields_nameStatement hname (yields_advance_bind ?_)
  refine ((accepted_named h hs₁ he hopen).imp fun hd => by omega).bind (yields_kind ?_)
  rw [if_pos he, if_pos htarget]
  refine yields_drop ?_
  refine ((accepted_expression h' hs₄ hstop).imp fun hd => by omega).bind ?_
  exact yields_take hstop yields_pure

theorem callOnly_accepted {f args : Tree} (hder : Derives .named ts next (.callExpression f args))
    (h : Accepted .named ts next (.callExpression f args)) (hn : ¬next.Opens)
    (he : next ≠ .equals) : Accepted .statement ts next (.callExpression f args) := by
  refine accepted_statement (hder.length_pos rfl) fun depth c c' hs hnext => ?_
  have hname : c.current.IsName := by
    obtain ⟨tok, rest, rfl, hb⟩ := hder.begins rfl
    rw [hs.cons.1]
    exact hb
  refine yields_nameStatement hname (yields_advance_bind ?_)
  refine (accepted_named h hs hnext hn).bind (yields_kind ?_)
  rw [if_neg (by rw [hnext]; exact he)]
  exact yields_pure

theorem program_accepted {items : List Tree} (h : Accepted .body ts .endOfInput (.list items)) :
    Accepted .program ts .endOfInput (.program (.list items)) := by
  intro depth c c' hs hn
  simp only [Accepts]
  unfold program
  refine yields_remaining ?_
  refine (h depth c c' hs hn items rfl (fun k => k = .endOfInput) (by simp [hn])
    (fun k hk => decide_eq_false ?_) _ (Nat.lt_succ_self _)).bind yields_pure
  rintro rfl
  cases hk

/-- **What is derived is accepted.** -/
theorem Derives.accepts {form : Form} (h : Derives form ts next t) : Accepted form ts next t := by
  induction h with
  | named h hn hm ih =>
    obtain ⟨_, _, he, hname⟩ := h.begins rfl
    cases he
    exact named_accepted hname ih hn hm
  | number h hx => exact number_accepted h hx
  | string h => exact string_accepted h
  | boolean h => exact boolean_accepted h
  | literal h ih => exact literal_accepted h ih
  | group ho _ hc ih => exact group_accepted ho ih hc
  | negative hs hw _ ih => exact negative_accepted hs hw ih
  | not hk _ ih => exact not_accepted hk ih
  | name _ => exact name_accepted
  | index _ ho _ hc ih ih' => exact index_accepted ih ho ih' hc
  | call _ ho _ ih ih' => exact call_accepted ih ho ih'
  | first _ ih => exact first_accepted ih
  | joined _ ho _ ih ih' => exact joined_accepted ih ho ih'
  | chain _ hn ih => exact chain_accepted ih hn
  | array ho _ ih => exact array_accepted ho ih
  | noElement h => exact noElement_accepted h
  | element h hs _ _ ih ih' => exact element_accepted h ih hs ih'
  | noArgument h => exact noArgument_accepted h
  | argument h hs h' _ ih ih' => exact argument_accepted h ih hs h' ih'
  | noParameter h => exact noParameter_accepted h
  | parameter h hs h' ih => exact parameter_accepted h hs h' ih
  | box hk hn hs => exact box_accepted hk hn hs
  | boxSet hk hn he _ hs ih => exact boxSet_accepted hk hn he ih hs
  | noChange hk hn he _ hs ih => exact noChange_accepted hk hn he ih hs
  | boxes hk hn he _ hs ih => exact boxes_accepted hk hn he ih hs
  | function hk hn ho _ hd _ hs ih ih' => exact function_accepted hk hn ho ih hd ih' hs
  | ifThen hk _ hd _ hs ih ih' => exact ifThen_accepted hk ih hd ih' hs
  | ifElse hk _ hd _ he ho h'' hs ih ih' ih'' =>
    exact ifElse_accepted hk ih hd ih' he ho h'' ih'' hs
  | whileDo hk _ hd _ hs ih ih' => exact whileDo_accepted hk ih hd ih' hs
  | forTo hk hn he _ ht _ hd _ hs ih ih' ih'' => exact forTo_accepted hk hn he ih ht ih' hd ih'' hs
  | returnNull hk hs => exact returnNull_accepted hk hs
  | returnValue hk h hs ih => exact returnValue_accepted hk h ih hs
  | assign h ht he _ hs ih ih' => exact assign_accepted h ih ht he ih' hs
  | callOnly h hn he ih => exact callOnly_accepted h ih hn he
  | empty => exact empty_accepted
  | more h _ ih ih' => exact more_accepted h ih ih'
  | program _ ih => exact program_accepted ih

/-! ## Token lists -/

/-- The tokens before the first end of input. -/
def beforeEnd (tokens : List Token) : List Token := tokens.takeWhile fun t => t.kind ≠ .endOfInput

theorem beforeEnd_eq (hs : c.Spans ts c') (hk : c'.current.kind = .endOfInput) :
    beforeEnd c.tokens = ts := by
  have hin : ∀ t ∈ ts, decide (t.kind ≠ .endOfInput) = true := fun t ht =>
    decide_eq_true (hs.inside t ht)
  unfold beforeEnd
  rw [hs.eq, List.takeWhile_append_of_pos hin]
  simp [Cursor.tokens, hk]

/-- The tokens before the end of input lead to it. -/
theorem spans_beforeEnd (hc : c.Closed) :
    ∃ c', c.Spans (beforeEnd c.tokens) c' ∧ c'.current.kind = .endOfInput := by
  obtain ⟨last, hl, hlast⟩ := hc
  have hin : ∀ t ∈ beforeEnd c.tokens, t.kind ≠ .endOfInput := fun t ht => by
    simpa using List.all_eq_true.1 List.all_takeWhile t ht
  have hsplit := List.takeWhile_append_dropWhile (p := fun t : Token => t.kind ≠ .endOfInput)
    (l := c.tokens)
  cases hd : c.tokens.dropWhile fun t => t.kind ≠ .endOfInput with
  | nil =>
    -- the last token is an end of input, so it is not passed over
    rw [hd, List.append_nil] at hsplit
    have hmem : last ∈ beforeEnd c.tokens := by
      rw [beforeEnd, hsplit]
      exact List.mem_of_getLast? hl
    exact absurd hlast (hin last hmem)
  | cons first later =>
    refine ⟨⟨first, later⟩, ⟨?_, hin⟩, ?_⟩
    · rw [hd] at hsplit
      exact hsplit.symm
    · have hhead := List.head?_dropWhile_not (fun t : Token => t.kind ≠ .endOfInput) c.tokens
      rw [hd] at hhead
      simpa using hhead

/-- **The parser accepts what the grammar derives.**  Of a token list that ends with the end of
    input, a tree is parsed if and only if it is derived from the tokens before the first end of
    input, unless the limit on nesting is hit; and a limit of as many levels as there are tokens
    is not hit by what is derived. -/
theorem parseTokens_eq_ok_iff {tokens : List Token} {last : Token}
    (hl : tokens.getLast? = some last) (hk : last.kind = .endOfInput) (depth : Nat) (p : Tree) :
    (parseTokens depth tokens ≠ .error .tooDeep →
      (parseTokens depth tokens = .ok p ↔ Derives .program (beforeEnd tokens) .endOfInput p)) ∧
    (tokens.length ≤ depth → Derives .program (beforeEnd tokens) .endOfInput p →
      parseTokens depth tokens = .ok p) := by
  obtain ⟨c, hc, rfl, hclosed⟩ := Cursor.ofList?_eq hl hk
  obtain ⟨c', hs, hend⟩ := spans_beforeEnd hclosed
  have hsound := program_reads depth hclosed
  have hlen := hs.length
  have hcomplete : Derives .program (beforeEnd c.tokens) .endOfInput p →
      Yields (depth < (beforeEnd c.tokens).length) (program depth) c p c' := fun h =>
    h.accepts depth c c' hs hend
  unfold parseTokens
  simp only [hc]
  unfold Reads at hsound
  unfold Yields at hcomplete
  cases hrun : program depth c with
  | ok t c₁ =>
    rw [ends_of_ok hrun] at hsound
    simp only [ends_of_ok hrun] at hcomplete
    obtain ⟨ts, hs₁, hend₁, ht⟩ := hsound
    rw [hend₁, ← beforeEnd_eq hs₁ hend₁] at ht
    refine ⟨fun _ => ⟨fun h => ?_, fun h => ?_⟩, fun _ h => ?_⟩
    · cases h
      exact ht
    · rw [(hcomplete h).1]
    · rw [(hcomplete h).1]
  | error e c₁ =>
    simp only [ends_of_error hrun] at hcomplete
    refine ⟨fun hdeep => ⟨fun h => (by cases h), fun h => ?_⟩, fun hdepth h => ?_⟩
    · exact absurd (by rw [(hcomplete h).1]) hdeep
    · have hshort := (hcomplete h).2
      simp only [Cursor.tokens, List.length_cons] at hdepth
      omega

/-- A token without a place. -/
def bare (kind : Kind) (text : String) : Token := ⟨kind, text, none, none⟩

/-- The tokens of `f(subtract "a") x = true end`. -/
def signInCall : List Token :=
  [bare .identifier "f", bare .beginParams "(", bare .minus "subtract", bare .string "a",
   bare .endParams ")", bare .identifier "x", bare .equals "=", bare .boolean "true",
   bare .endKw "end", bare .endOfInput ""]

/-- The tokens of `f() equal = true end`. -/
def equalAfterCall : List Token :=
  [bare .identifier "f", bare .beginParams "(", bare .endParams ")", bare .equals "equal",
   bare .equals "=", bare .boolean "true", bare .endKw "end", bare .endOfInput ""]

/-- A call and an assignment, where `subtract` is a sign. -/
def signInCallTree : Tree :=
  .program (.list [
    .callExpression (.identifier (.text "f"))
      (.list [.unaryExpression (.text "subtract") (.stringLiteral (.text "a"))]),
    .assignmentExpression (.identifier (.text "x")) (.booleanLiteral (.bool true))])

/-- One list is derived.  The other is not, as the word `equal` after a call is no name. -/
theorem parseTokens_eq_ok_iff_call :
    signInCall.getLast? = some (bare .endOfInput "") ∧
      equalAfterCall.getLast? = some (bare .endOfInput "") ∧
      parseTokens 9 signInCall ≠ .error .tooDeep ∧
      parseTokens 9 equalAfterCall ≠ .error .tooDeep ∧
      Derives .program (beforeEnd signInCall) .endOfInput signInCallTree ∧
      (∀ p, ¬Derives .program (beforeEnd equalAfterCall) .endOfInput p) ∧
      parseTokens 10 signInCall = .ok signInCallTree := by
  have haccepted : parseTokens 9 signInCall = .ok signInCallTree := by rfl
  have hrefused : parseTokens 9 equalAfterCall =
      .error (.unexpected .assignmentToCall (bare .equals "equal")) := by rfl
  have hlast : signInCall.getLast? = some (bare .endOfInput "") := rfl
  have hlast' : equalAfterCall.getLast? = some (bare .endOfInput "") := rfl
  have hdeep : parseTokens 9 signInCall ≠ .error .tooDeep := by rw [haccepted]; simp
  have hdeep' : parseTokens 9 equalAfterCall ≠ .error .tooDeep := by rw [hrefused]; simp
  have hderives : Derives .program (beforeEnd signInCall) .endOfInput signInCallTree :=
    ((parseTokens_eq_ok_iff hlast rfl 9 signInCallTree).1 hdeep).1 haccepted
  refine ⟨hlast, hlast', hdeep, hdeep', hderives, fun p h => ?_,
    (parseTokens_eq_ok_iff hlast rfl 10 signInCallTree).2 (Nat.le_refl _) hderives⟩
  have hok := ((parseTokens_eq_ok_iff hlast' rfl 9 p).1 hdeep').2 h
  rw [hrefused] at hok
  cases hok

end BoxScript.Grammar
