/-
  What parsers do to the place in a token list.

  * `Cursor.Spans c ts c'`: the tokens `ts` lead from the place `c` to the place `c'`, and the
    end of input is not among them;
  * `Reads x c R`: from `c`, the parser `x` gives a value that `R` relates to the tokens it has
    used and to the kind of the next one, or stops for a reason (`Blames`);
  * `Yields short x c a c'`: from `c`, the parser gives `a` at the place `c'`, or stops since
    the limit on nesting is too small, which happens only if `short` holds.

  The first describes what a parser accepts and the second shows that it does accept.
-/
import BoxScript.Proofs.Grammar.Derivation
import BoxScript.Proofs.Outcome

namespace BoxScript

open Grammar

/-! ## Places in a token list -/

namespace Cursor

variable {c c' c'' : Cursor} {ts ts' : List Token} {tok : Token}

/-- The tokens lead from one place to another. -/
structure Spans (c : Cursor) (ts : List Token) (c' : Cursor) : Prop where
  eq : c.tokens = ts ++ c'.tokens
  inside : ∀ t ∈ ts, t.kind ≠ .endOfInput

/-- The token list ends with the end of input. -/
def Closed (c : Cursor) : Prop := ∃ last, c.tokens.getLast? = some last ∧ last.kind = .endOfInput

theorem Spans.refl (c : Cursor) : c.Spans [] c := ⟨rfl, by simp⟩

theorem Spans.trans (h : c.Spans ts c') (h' : c'.Spans ts' c'') : c.Spans (ts ++ ts') c'' where
  eq := by rw [h.eq, h'.eq, List.append_assoc]
  inside t ht := by
    rcases List.mem_append.1 ht with ht | ht
    · exact h.inside t ht
    · exact h'.inside t ht

theorem eq_of_spans_nil (h : c.Spans [] c') : c = c' := by
  have := h.eq
  cases c; cases c'
  simp_all [tokens]

/-- A place after some tokens can be divided like the tokens. -/
theorem Spans.split (h : c.Spans (ts ++ ts') c'') : ∃ c', c.Spans ts c' ∧ c'.Spans ts' c'' := by
  have hin := h.inside
  have hne : ts' ++ c''.tokens ≠ [] := by simp [tokens]
  obtain ⟨first, later, he⟩ := List.exists_cons_of_ne_nil hne
  refine ⟨⟨first, later⟩, ⟨?_, fun t ht => hin t (by simp [ht])⟩,
    ⟨he.symm, fun t ht => hin t (by simp [ht])⟩⟩
  rw [h.eq, List.append_assoc, he]
  rfl

/-- The first token that leads on is the current one. -/
theorem Spans.cons (h : c.Spans (tok :: ts) c') :
    c.current = tok ∧ tok.kind ≠ .endOfInput ∧ c.next.Spans ts c' := by
  have hk := h.inside tok (by simp)
  have ht := h.eq
  cases c with
  | mk current later =>
    simp only [tokens, List.cons_append, List.cons.injEq] at ht
    obtain ⟨rfl, rfl⟩ := ht
    refine ⟨rfl, hk, ?_, fun t ht => h.inside t (by simp [ht])⟩
    rw [next, if_neg hk]
    cases ts <;> rfl

theorem Spans.leading (h : c.Spans ts c') : leading ts c'.current.kind = c.current.kind := by
  cases ts with
  | nil => rw [eq_of_spans_nil h]; rfl
  | cons t ts => rw [h.cons.1]; rfl

/-- The token after the current one, if the current one is passed. -/
theorem Spans.cons_lookahead (h : c.Spans (tok :: ts) c') :
    c.lookahead.kind = Grammar.leading ts c'.current.kind := by
  have hlater : c.later = ts ++ c'.tokens := by simpa [tokens] using (List.cons.inj h.eq).2
  rw [lookahead, hlater]
  cases ts <;> rfl

theorem Spans.closed (h : c.Spans ts c') (hc : c.Closed) : c'.Closed := by
  obtain ⟨last, hl, hk⟩ := hc
  refine ⟨last, ?_, hk⟩
  rw [h.eq, List.getLast?_append] at hl
  cases hlast : c'.tokens.getLast? with
  | none => simp [tokens] at hlast
  | some t => rw [hlast] at hl; exact hl

theorem Spans.length (h : c.Spans ts c') : c.later.length = ts.length + c'.later.length := by
  have := congrArg List.length h.eq
  simp only [tokens, List.length_cons, List.length_append] at this
  omega

/-- In a closed list, a token that is not the end of input leads on. -/
theorem Closed.spans (hc : c.Closed) (hk : c.current.kind ≠ .endOfInput) :
    c.Spans [c.current] c.next := by
  obtain ⟨last, hl, hlast⟩ := hc
  cases c with
  | mk current later =>
    cases later with
    | nil =>
      simp only [tokens, List.getLast?_singleton, Option.some.injEq] at hl
      exact absurd (hl ▸ hlast) hk
    | cons t later =>
      refine ⟨?_, by simpa using hk⟩
      rw [next, if_neg hk]
      rfl

/-- The last token of a closed list is the end of input. -/
theorem Closed.kind_of_last (hc : c.Closed) (h : c.later.length = 0) :
    c.current.kind = .endOfInput := by
  obtain ⟨last, hl, hlast⟩ := hc
  simp only [tokens, List.eq_nil_of_length_eq_zero h, List.getLast?_singleton,
    Option.some.injEq] at hl
  rw [hl, hlast]

theorem ofList?_eq {list : List Token} {last : Token} (hl : list.getLast? = some last)
    (hk : last.kind = .endOfInput) :
    ∃ c : Cursor, ofList? list = some c ∧ c.tokens = list ∧ c.Closed := by
  cases list with
  | nil => cases hl
  | cons first later =>
    refine ⟨⟨first, later⟩, ?_, rfl, last, hl, hk⟩
    simp only [ofList?, hl, hk, if_true]

theorem closed_of_ofList? {list : List Token} {c : Cursor} (h : ofList? list = some c) :
    c.Closed := by
  unfold ofList? at h
  split at h
  · next first later last hlast =>
    by_cases hk : last.kind = .endOfInput
    · rw [if_pos hk] at h
      cases h
      exact ⟨last, hlast, hk⟩
    · rw [if_neg hk] at h
      cases h
  · cases h

end Cursor

/-! ## What a parser accepts -/

section Reads

variable {α β : Type} {c : Cursor}

/-- Why a parser that began at `c` stopped at `c'`: the limit, the token at which it stopped,
    or a number that it has used. -/
def Blames (c : Cursor) (e : Obstacle) (c' : Cursor) : Prop :=
  ∃ ts, c.Spans ts c' ∧ (e = .tooDeep ∨ (∃ complaint, e = .unexpected complaint c'.current) ∨
    ∃ tok ∈ ts, tok.kind = .number ∧ Number.read? tok.text = none ∧
      e = .unreadableNumber tok.text)

theorem Blames.after {ts : List Token} {c₁ c' : Cursor} {e : Obstacle} (h : c.Spans ts c₁)
    (h' : Blames c₁ e c') : Blames c e c' := by
  obtain ⟨ts', hs, hwhy⟩ := h'
  refine ⟨ts ++ ts', h.trans hs, hwhy.imp_right (Or.imp_right ?_)⟩
  rintro ⟨tok, ht, hn⟩
  exact ⟨tok, List.mem_append_right _ ht, hn⟩

/-- From `c`, the parser gives a value related to the tokens it used and to the kind of the
    next one, or stops for a reason. -/
def Reads (x : Parse α) (c : Cursor) (R : List Token → Kind → α → Prop) : Prop :=
  Ends x c (fun a c' => ∃ ts, c.Spans ts c' ∧ R ts c'.current.kind a) fun e c' => Blames c e c'

theorem Reads.bind {x : Parse α} {f : α → Parse β} {R : List Token → Kind → α → Prop}
    {R' : List Token → Kind → β → Prop} (hx : Reads x c R)
    (hf : ∀ a ts c₁, c.Spans ts c₁ → R ts c₁.current.kind a →
      Reads (f a) c₁ fun ts' next b => R' (ts ++ ts') next b) : Reads (x >>= f) c R' := by
  unfold Reads
  rw [ends_bind]
  refine Ends.imp hx (fun a c₁ ⟨ts, hs, ha⟩ => ?_) fun _ _ h => h
  refine Ends.imp (hf a ts c₁ hs ha) (fun b c₂ ⟨ts', hs', hb⟩ => ?_) fun _ _ h => h.after hs
  exact ⟨ts ++ ts', hs.trans hs', hb⟩

theorem Reads.imp {x : Parse α} {R R' : List Token → Kind → α → Prop} (hx : Reads x c R)
    (h : ∀ ts c' a, c.Spans ts c' → R ts c'.current.kind a → R' ts c'.current.kind a) :
    Reads x c R' :=
  Ends.imp hx (fun a c' ⟨ts, hs, ha⟩ => ⟨ts, hs, h ts c' a hs ha⟩) fun _ _ h => h

theorem reads_pure {a : α} {R : List Token → Kind → α → Prop} (h : R [] c.current.kind a) :
    Reads (pure a) c R := ⟨[], .refl c, h⟩

theorem reads_tooDeep {R : List Token → Kind → α → Prop} : Reads (throw .tooDeep) c R :=
  ⟨[], .refl c, Or.inl rfl⟩

theorem reads_refuse {complaint : Complaint} {R : List Token → Kind → α → Prop} :
    Reads (Parse.refuse complaint) c R := ⟨[], .refl c, Or.inr (Or.inl ⟨complaint, rfl⟩)⟩

/-! Looking at the place moves nothing. -/

theorem reads_get {f : Cursor → Parse α} {R : List Token → Kind → α → Prop}
    (h : Reads (f c) c R) : Reads (get >>= f) c R := h

theorem reads_kind {f : Kind → Parse α} {R : List Token → Kind → α → Prop}
    (h : Reads (f c.current.kind) c R) : Reads (Parse.kind >>= f) c R := h

theorem reads_peek {f : Token → Parse α} {R : List Token → Kind → α → Prop}
    (h : Reads (f c.current) c R) : Reads (Parse.peek >>= f) c R := h

theorem reads_remaining {f : Nat → Parse α} {R : List Token → Kind → α → Prop}
    (h : Reads (f c.later.length) c R) : Reads (Parse.remaining >>= f) c R := h

/-! Taking a token. -/

theorem reads_advance (hc : c.Closed) (hk : c.current.kind ≠ .endOfInput) :
    Reads Parse.advance c fun ts _ tok => ts = [tok] ∧ tok = c.current :=
  ⟨[c.current], hc.spans hk, rfl, rfl⟩

theorem reads_expect {k : Kind} {what : Expectation} (hc : c.Closed) (hk : k ≠ .endOfInput) :
    Reads (Parse.expect k what) c fun ts _ tok => ts = [tok] ∧ tok.kind = k ∧ tok = c.current := by
  unfold Parse.expect
  refine reads_kind ?_
  split
  · next h =>
    refine (reads_advance hc (h ▸ hk)).imp fun ts c' tok _ ⟨hts, ht⟩ => ⟨hts, ?_, ht⟩
    rw [ht, h]
  · exact reads_refuse

theorem reads_expectName {what : Expectation} (hc : c.Closed) :
    Reads (Parse.expectName what) c
      fun ts _ name => ∃ tok, ts = [tok] ∧ tok.IsName ∧ name = tok.text := by
  unfold Parse.expectName
  refine reads_peek ?_
  split
  · next h =>
    have hname : c.current.IsName := Or.inr h
    refine (reads_advance hc hname.ne_endOfInput).bind fun tok ts c₁ _ ⟨hts, ht⟩ => reads_pure ?_
    exact ⟨tok, by rw [hts]; rfl, ht ▸ hname, rfl⟩
  · refine (reads_expect hc (by simp)).bind fun tok ts c₁ _ ⟨hts, hk, _⟩ => reads_pure ?_
    exact ⟨tok, by rw [hts]; rfl, Or.inl hk, rfl⟩

theorem reads_skipIf {k : Kind} (hc : c.Closed) (hk : k ≠ .endOfInput) :
    Reads (Parse.skipIf k) c fun ts _ _ => Optional k ts := by
  unfold Parse.skipIf
  refine reads_kind ?_
  split
  · next h =>
    exact ends_discard.2 ⟨[c.current], hc.spans (h ▸ hk), .present h⟩
  · exact reads_pure .absent

/-! Taking a token and going on. -/

theorem reads_advance_bind {f : Token → Parse α} {R : List Token → Kind → α → Prop}
    (hc : c.Closed) (hk : c.current.kind ≠ .endOfInput)
    (h : c.Spans [c.current] c.next →
      Reads (f c.current) c.next fun ts next a => R (c.current :: ts) next a) :
    Reads (Parse.advance >>= f) c R := by
  refine (reads_advance hc hk).bind fun tok ts c₁ hs ⟨hts, ht⟩ => ?_
  subst hts ht
  have hnext : c.next = c₁ := Cursor.eq_of_spans_nil hs.cons.2.2
  exact hnext ▸ h (hnext ▸ hs)

theorem reads_drop {f : PUnit → Parse α} {R : List Token → Kind → α → Prop}
    (hc : c.Closed) (hk : c.current.kind ≠ .endOfInput)
    (h : c.Spans [c.current] c.next →
      Reads (f ⟨⟩) c.next fun ts next a => R (c.current :: ts) next a) :
    Reads (discard Parse.advance >>= f) c R :=
  reads_advance_bind (f := fun _ => f ⟨⟩) hc hk h

theorem reads_take {k : Kind} {what : Expectation} {f : PUnit → Parse α}
    {R : List Token → Kind → α → Prop} (hc : c.Closed) (hk : k ≠ .endOfInput)
    (h : c.current.kind = k → c.Spans [c.current] c.next →
      Reads (f ⟨⟩) c.next fun ts next a => R (c.current :: ts) next a) :
    Reads (discard (Parse.expect k what) >>= f) c R := by
  have hx : Reads (discard (Parse.expect k what)) c
      fun ts _ _ => ts = [c.current] ∧ c.current.kind = k := by
    refine ends_discard.2 (Ends.imp (reads_expect hc hk) (fun tok c' ⟨ts, hs, hts, ht, he⟩ => ?_)
      fun _ _ h => h)
    exact ⟨ts, hs, he ▸ hts, he ▸ ht⟩
  refine hx.bind fun _ ts c₁ hs ⟨hts, ht⟩ => ?_
  subst hts
  have hnext : c.next = c₁ := Cursor.eq_of_spans_nil hs.cons.2.2
  exact hnext ▸ h ht (hnext ▸ hs)

theorem reads_name {what : Expectation} {f : String → Parse α} {R : List Token → Kind → α → Prop}
    (hc : c.Closed)
    (h : ∀ tok c₁, tok.IsName → c.Spans [tok] c₁ →
      Reads (f tok.text) c₁ fun ts next a => R (tok :: ts) next a) :
    Reads (Parse.expectName what >>= f) c R := by
  refine (reads_expectName hc).bind fun name ts c₁ hs ⟨tok, hts, hn, hname⟩ => ?_
  subst hts hname
  exact h tok c₁ hn hs

end Reads

/-! ## What a parser yields -/

section Yields

variable {α β : Type} {c c₁ c' : Cursor} {short short' : Prop}

theorem ends_kind {f : Kind → Parse α} {Q : α → Cursor → Prop} {E : Obstacle → Cursor → Prop} :
    Ends (Parse.kind >>= f) c Q E ↔ Ends (f c.current.kind) c Q E := Iff.rfl

theorem ends_peek {f : Token → Parse α} {Q : α → Cursor → Prop} {E : Obstacle → Cursor → Prop} :
    Ends (Parse.peek >>= f) c Q E ↔ Ends (f c.current) c Q E := Iff.rfl

/-- From `c`, the parser gives `a` at the place `c'`; or the limit on nesting is too small for
    it, which happens only if `short` holds. -/
def Yields (short : Prop) (x : Parse α) (c : Cursor) (a : α) (c' : Cursor) : Prop :=
  Ends x c (fun b c'' => b = a ∧ c'' = c') fun e _ => e = .tooDeep ∧ short

theorem Yields.bind {x : Parse α} {f : α → Parse β} {a : α} {b : β} (hx : Yields short x c a c₁)
    (hf : Yields short (f a) c₁ b c') : Yields short (x >>= f) c b c' := by
  unfold Yields
  rw [ends_bind]
  refine Ends.imp hx (fun a' c'' ⟨ha, hc⟩ => ?_) fun _ _ h => h
  rw [ha, hc]
  exact hf

theorem Yields.imp {x : Parse α} {a : α} (hx : Yields short x c a c') (h : short → short') :
    Yields short' x c a c' :=
  Ends.imp hx (fun _ _ h => h) fun _ _ ⟨he, hs⟩ => ⟨he, h hs⟩

theorem yields_pure {a : α} : Yields short (pure a) c a c := ⟨rfl, rfl⟩

theorem yields_tooDeep {a : α} (h : short) : Yields short (throw .tooDeep) c a c' := ⟨rfl, h⟩

theorem yields_get {f : Cursor → Parse α} {a : α} (h : Yields short (f c) c a c') :
    Yields short (get >>= f) c a c' := h

theorem yields_kind {f : Kind → Parse α} {a : α} (h : Yields short (f c.current.kind) c a c') :
    Yields short (Parse.kind >>= f) c a c' := h

theorem yields_peek {f : Token → Parse α} {a : α} (h : Yields short (f c.current) c a c') :
    Yields short (Parse.peek >>= f) c a c' := h

theorem yields_remaining {f : Nat → Parse α} {a : α}
    (h : Yields short (f c.later.length) c a c') :
    Yields short (Parse.remaining >>= f) c a c' := h

theorem yields_advance_bind {f : Token → Parse α} {a : α}
    (h : Yields short (f c.current) c.next a c') : Yields short (Parse.advance >>= f) c a c' := h

theorem yields_drop {f : PUnit → Parse α} {a : α} (h : Yields short (f ⟨⟩) c.next a c') :
    Yields short (discard Parse.advance >>= f) c a c' := h

theorem yields_take {k : Kind} {what : Expectation} {f : PUnit → Parse α} {a : α}
    (hk : c.current.kind = k) (h : Yields short (f ⟨⟩) c.next a c') :
    Yields short (discard (Parse.expect k what) >>= f) c a c' := by
  have hx : Yields short (discard (Parse.expect k what)) c ⟨⟩ c.next := by
    unfold Yields Parse.expect
    rw [ends_discard]
    show Ends (if c.current.kind = k then Parse.advance else _) c _ _
    rw [if_pos hk]
    exact ⟨rfl, rfl⟩
  exact hx.bind h

theorem yields_name {what : Expectation} {f : String → Parse α} {a : α}
    (hn : c.current.IsName) (h : Yields short (f c.current.text) c.next a c') :
    Yields short (Parse.expectName what >>= f) c a c' := by
  have hx : Yields short (Parse.expectName what) c c.current.text c.next := by
    unfold Parse.expectName
    refine yields_peek ?_
    split
    · exact ⟨rfl, rfl⟩
    · next hw =>
      have hk : c.current.kind = .identifier := hn.resolve_right hw
      unfold Yields Parse.expect
      rw [ends_bind]
      show Ends (if c.current.kind = .identifier then Parse.advance else _) c _ _
      rw [if_pos hk]
      exact ⟨rfl, rfl⟩
  exact hx.bind h

/-- A token that may be left out. -/
theorem yields_skipIf {k : Kind} {ts : List Token} (h : Optional k ts) (hs : c.Spans ts c')
    (hn : c'.current.kind ≠ k) : Yields short (Parse.skipIf k) c ⟨⟩ c' := by
  unfold Parse.skipIf
  refine yields_kind ?_
  cases h with
  | absent =>
    obtain rfl := Cursor.eq_of_spans_nil hs
    rw [if_neg hn]
    exact yields_pure
  | present hk =>
    obtain ⟨hcur, -, hs'⟩ := hs.cons
    rw [if_pos (hcur ▸ hk), ← Cursor.eq_of_spans_nil hs']
    exact ⟨rfl, rfl⟩

end Yields

end BoxScript
