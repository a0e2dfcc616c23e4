/-
  Parsers go forward and end.

  * `Cursor.IsAt tokens i c`: the place of index `i` in a token list, where no end of input comes
    before it;
  * `Proceeds`: from such a place, a parser gives a tree at a later one, or it stops at this place
    or at a later one;
  * `Suffices loop rounds c`: a loop that may go round so often ends by itself, since it would do
    the same if it were allowed more rounds.  `suffices_of_round` derives this from what one round
    does, as every round uses a token;
  * `parsing_ends`: **parsing ends, whatever the tokens are**, and with a limit on nesting above
    their number it ends with a tree or with a complaint about one of them.
-/
import BoxScript.Proofs.Grammar.Continuation
import BoxScript.Proofs.Grammar.Nesting

namespace BoxScript

open Grammar

/-! ## Places by their index -/

namespace Cursor

variable {start c c' : Cursor} {ts tokens : List Token} {i : Nat}

/-- The place of index `i` in the token list, which is not past the first end of input. -/
structure IsAt (tokens : List Token) (i : Nat) (c : Cursor) : Prop where
  tokens_eq : c.tokens = tokens.drop i
  before : ∀ tok ∈ tokens.take i, tok.kind ≠ .endOfInput

theorem Spans.isAt (h : start.Spans ts c) : IsAt start.tokens ts.length c where
  tokens_eq := by rw [h.eq, List.drop_left]
  before := by rw [h.eq, List.take_left]; exact h.inside

theorem IsAt.spans (h : IsAt start.tokens i c) : start.Spans (start.tokens.take i) c where
  eq := by rw [h.tokens_eq, List.take_append_drop]
  inside := h.before

/-- There is a token at the place. -/
theorem IsAt.lt_length (h : IsAt tokens i c) : i < tokens.length := by
  have hlen := congrArg List.length h.tokens_eq
  simp only [Cursor.tokens, List.length_cons, List.length_drop] at hlen
  omega

theorem IsAt.after (h : IsAt start.tokens i c) (hs : c.Spans ts c') :
    IsAt start.tokens (i + ts.length) c' := by
  have hat := (h.spans.trans hs).isAt
  rwa [List.length_append, List.length_take_of_le (Nat.le_of_lt h.lt_length)] at hat

theorem IsAt.ahead (h : IsAt start.tokens i c) : start.ahead = i + c.ahead := by
  rw [h.spans.ahead, List.length_take_of_le (Nat.le_of_lt h.lt_length)]

/-- The places are those up to the first end of input. -/
theorem exists_isAt_iff (hstart : start.Closed) :
    (∃ c, IsAt start.tokens i c) ↔ i ≤ start.ahead := by
  constructor
  · rintro ⟨c, h⟩
    rw [h.ahead]
    exact Nat.le_add_right _ _
  · intro hi
    obtain ⟨last, hs, -⟩ := spans_beforeEnd hstart
    rw [← List.take_append_drop i (beforeEnd start.tokens)] at hs
    obtain ⟨c, hc, -⟩ := hs.split
    have hat := hc.isAt
    rw [List.length_take_of_le hi] at hat
    exact ⟨c, hat⟩

/-- What can be done at a place stays in the list: the current token and the one after it, or the
    last one if there is none, are tokens of the list, and the next place is one as well. -/
structure StepsInside (tokens : List Token) (i : Nat) (c : Cursor) : Prop where
  current : tokens[i]? = some c.current
  lookahead : tokens[min (i + 1) (tokens.length - 1)]? = some c.lookahead
  next : IsAt tokens (if c.current.kind = .endOfInput then i else i + 1) c.next

theorem IsAt.stepsInside (h : IsAt start.tokens i c) (hstart : start.Closed) :
    StepsInside start.tokens i c := by
  have hget : ∀ j, start.tokens[i + j]? = c.tokens[j]? := fun j => by
    rw [h.tokens_eq, List.getElem?_drop]
  have hlen : start.tokens.length = i + 1 + c.later.length := by
    have hlength := congrArg List.length h.tokens_eq
    have hlt := h.lt_length
    rw [Cursor.tokens, List.length_cons, List.length_drop] at hlength
    omega
  refine ⟨hget 0, ?_, ?_⟩
  · cases hlater : c.later with
    | nil =>
      have hmin : min (i + 1) (start.tokens.length - 1) = i + 0 := by
        rw [hlen, hlater, List.length_nil]
        omega
      rw [hmin, hget]
      simp [lookahead, Cursor.tokens, hlater]
    | cons tok later =>
      have hmin : min (i + 1) (start.tokens.length - 1) = i + 1 := by
        rw [hlen, hlater, List.length_cons]
        omega
      rw [hmin, hget]
      simp [lookahead, Cursor.tokens, hlater]
  · split
    · next hk =>
      rw [next, if_pos hk]
      exact h
    · next hk => exact h.after ((h.spans.closed hstart).spans hk)

end Cursor

/-! ## Going forward -/

section Forward

variable {α : Type} {x : Parse α} {a : α} {c c' : Cursor}

theorem UnhinderedBelow.forward (hx : UnhinderedBelow (c.ahead + 1) x) (hc : c.Closed)
    (h : x c = .ok a c') : c'.Closed ∧ c'.ahead ≤ c.ahead := by
  obtain ⟨ts, hs⟩ := (ends_of_ok h).1 (hx c hc (Nat.lt_succ_self _))
  refine ⟨hs.closed hc, ?_⟩
  rw [hs.ahead]
  exact Nat.le_add_left _ _

theorem Grammar.Parses.forward {x : Parse Tree} {form : Form} {t : Tree} (hx : Parses x form)
    (hf : form.canBeEmpty = false) (hc : c.Closed) (h : x c = .ok t c') :
    c'.Closed ∧ c'.ahead < c.ahead := by
  obtain ⟨ts, hs, ht⟩ := (ends_of_ok h).1 (hx c hc)
  have hpos := ht.length_pos hf
  have hahead := hs.ahead
  exact ⟨hs.closed hc, by omega⟩

end Forward

/-- The obstacle arises from a token of the list, which violates the grammar or is a number that
    cannot be read. -/
def Obstacle.ArisesFrom (e : Obstacle) (tokens : List Token) : Prop :=
  (∃ complaint, ∃ tok ∈ tokens, e = .unexpected complaint tok) ∨
    ∃ tok ∈ tokens, tok.kind = .number ∧ Number.read? tok.text = none ∧
      e = .unreadableNumber tok.text

theorem Blames.spans {c c' : Cursor} {e : Obstacle} (h : Blames c e c') :
    ∃ ts, c.Spans ts c' :=
  h.imp fun _ h => h.1

theorem Blames.arisesFrom {c c' : Cursor} {e : Obstacle} (h : Blames c e c') (he : e ≠ .tooDeep) :
    e.ArisesFrom c.tokens := by
  obtain ⟨ts, hs, hdeep | ⟨complaint, hcomplaint⟩ | ⟨tok, htok, hnumber⟩⟩ := h
  · exact absurd hdeep he
  · exact Or.inl ⟨complaint, c'.current, by rw [hs.eq]; simp [Cursor.tokens], hcomplaint⟩
  · exact Or.inr ⟨tok, by rw [hs.eq]; exact List.mem_append_left _ htok, hnumber⟩

namespace Grammar

open Parse Cursor

variable {p : Parse Tree} {start c : Cursor} {i depth : Nat}

/-- From the place, the parser gives a tree at a later place; or it stops, at this place or at a
    later one, because of a token, or because of a limit that is not above the number of tokens
    ahead. -/
def Proceeds (tokens : List Token) (i depth : Nat) (x : Parse Tree) (c : Cursor) : Prop :=
  Ends x c (fun _ c' => ∃ j, i < j ∧ IsAt tokens j c') fun e c' =>
    ∃ j, i ≤ j ∧ IsAt tokens j c' ∧ (e.ArisesFrom tokens ∨ e = .tooDeep ∧ depth ≤ c.ahead)

theorem Parses.proceeds {x : Parse Tree} {form : Form} (hx : Parses x form)
    (hf : form.canBeEmpty = false) (hd : UnhinderedBelow depth x) (hstart : start.Closed)
    (h : IsAt start.tokens i c) : Proceeds start.tokens i depth x c := by
  have hc := h.spans.closed hstart
  have hreads := hx c hc
  unfold Proceeds
  unfold Reads at hreads
  cases hrun : x c with
  | ok t c' =>
    rw [ends_of_ok hrun] at hreads ⊢
    obtain ⟨ts, hs, ht⟩ := hreads
    exact ⟨i + ts.length, Nat.lt_add_of_pos_right (ht.length_pos hf), h.after hs⟩
  | error e c' =>
    rw [ends_of_error hrun] at hreads ⊢
    obtain ⟨ts, hs⟩ := hreads.spans
    refine ⟨i + ts.length, Nat.le_add_right _ _, h.after hs, ?_⟩
    by_cases he : e = .tooDeep
    · refine Or.inr ⟨he, Nat.le_of_not_lt fun hlt => ?_⟩
      exact (ends_of_error hrun).1 (hd c hc hlt) he
    · -- the blame is for a token after the place
      exact Or.inl ((hreads.after h.spans).arisesFrom he)

/-! ## Loops -/

section Loops

variable {α σ : Type}

/-- So many rounds suffice for the loop: with more of them it does the same. -/
def Suffices (loop : Nat → Parse α) (rounds : Nat) (c : Cursor) : Prop :=
  ∀ more, rounds ≤ more → loop more c = loop rounds c

theorem Suffices.of_succ {loop : Nat → Parse α} {rounds : Nat}
    (h : Suffices (fun n => loop (n + 1)) rounds c) : Suffices loop (rounds + 1) c := by
  intro more hmore
  obtain ⟨n, rfl⟩ : ∃ n, more = n + 1 := ⟨more - 1, by omega⟩
  exact h n (Nat.le_of_succ_le_succ hmore)

/-- **A loop ends** that stops at the end of input, and that goes round again only at places with
    fewer tokens ahead.  The loop may carry a value. -/
theorem suffices_of_round {f : Nat → σ → Parse α}
    (hlast : ∀ (c : Cursor) s, c.current.kind = .endOfInput → ∀ m n, f m s c = f n s c)
    (hround : ∀ (c : Cursor) s m n, c.Closed →
      (∀ (c' : Cursor) s', c'.Closed → c'.ahead < c.ahead → f m s' c' = f n s' c') →
      f (m + 1) s c = f (n + 1) s c) (hc : c.Closed) (s : σ) :
    Suffices (fun n => f n s) c.ahead c := by
  have hsame : ∀ (m n : Nat) (c : Cursor) (s : σ), c.Closed → c.ahead ≤ m → c.ahead ≤ n →
      f m s c = f n s c := by
    intro m
    induction m with
    | zero => exact fun n c s hc hm _ => hlast c s (hc.kind_of_ahead (Nat.le_zero.1 hm)) _ _
    | succ m ih =>
      intro n c s hc hm hn
      cases n with
      | zero => exact hlast c s (hc.kind_of_ahead (Nat.le_zero.1 hn)) _ _
      | succ n => exact hround c s m n hc fun c' s' hc' hlt => ih n c' s' hc' (by omega) (by omega)
  exact fun more hmore => hsame more c.ahead c s hc hmore (Nat.le_refl _)

theorem chainRest_suffices {k : Chain} (hop : Parses p k.operand) (hc : c.Closed) (left : Tree) :
    Suffices (fun rounds => chainRest p k.joins k.join rounds left) c.ahead c := by
  refine suffices_of_round (f := chainRest p k.joins k.join)
    (fun c left he m n => by rw [chainRest_last he, chainRest_last he])
    (fun c left m n hc ih => ?_) hc left
  unfold chainRest
  rw [kind_bind, kind_bind]
  split
  · refine bind_eq_bind rfl fun operator c₁ h₁ => bind_eq_bind rfl fun right c₂ h₂ => ?_
    obtain ⟨hc₁, hle⟩ := unhindered_advance.forward hc h₁
    obtain ⟨hc₂, hlt⟩ := hop.forward (by cases k <;> rfl) hc₁ h₂
    exact ih c₂ _ hc₂ (Nat.lt_of_lt_of_le hlt hle)
  · rfl

section
variable (hp : Parses p .primary) (hc : c.Closed)
include hp hc

theorem elements_suffices : Suffices (elements p) (c.ahead + 1) c := by
  refine .of_succ (suffices_of_round (f := fun n (_ : Unit) => elements p (n + 1))
    (fun c _ he m n => by rw [elements_last he, elements_last he]) (fun c _ m n hc ih => ?_) hc ())
  unfold elements
  rw [kind_bind, kind_bind]
  generalize c.current.kind = k
  split
  · rfl
  · rfl
  · refine bind_eq_bind rfl fun element c₁ h₁ => bind_eq_bind rfl fun _ c₂ h₂ => ?_
    obtain ⟨hc₁, hlt⟩ := (expression_parses hp).forward rfl hc h₁
    obtain ⟨hc₂, hle⟩ := skipSeparator_unhindered.forward hc₁ h₂
    exact bind_eq_bind (ih c₂ () hc₂ (Nat.lt_of_le_of_lt hle hlt)) fun _ _ _ => rfl

theorem arguments_suffices : Suffices (arguments p) (c.ahead + 1) c := by
  refine .of_succ (suffices_of_round (f := fun n (_ : Unit) => arguments p (n + 1))
    (fun c _ he m n => by rw [arguments_last he, arguments_last he]) (fun c _ m n hc ih => ?_)
    hc ())
  unfold arguments
  rw [kind_bind, kind_bind]
  generalize c.current.kind = k
  split
  · rfl
  · rfl
  · refine bind_eq_bind rfl fun argument c₁ h₁ => bind_eq_bind rfl fun _ c₂ h₂ => ?_
    obtain ⟨hc₁, hlt⟩ := (expression_parses hp).forward rfl hc h₁
    obtain ⟨hc₂, hle⟩ := (unhindered_skipIf _).forward hc₁ h₂
    exact bind_eq_bind (ih c₂ () hc₂ (Nat.lt_of_le_of_lt hle hlt)) fun _ _ _ => rfl

theorem suffixes_suffices (base : Tree) :
    Suffices (fun rounds => suffixes p rounds base) c.ahead c := by
  refine suffices_of_round (f := suffixes p)
    (fun c base he m n => by rw [suffixes_last he, suffixes_last he])
    (fun c base m n hc ih => ?_) hc base
  unfold suffixes
  rw [kind_bind, kind_bind]
  generalize c.current.kind = k
  split
  · refine bind_eq_bind rfl fun _ c₁ h₁ => bind_eq_bind rfl fun index c₂ h₂ =>
      bind_eq_bind rfl fun _ c₃ h₃ => ?_
    obtain ⟨hc₁, hle₁⟩ := unhindered_advance.discard.forward hc h₁
    obtain ⟨hc₂, hlt⟩ := (expression_parses hp).forward rfl hc₁ h₂
    obtain ⟨hc₃, hle₃⟩ := (unhindered_expect _ _).discard.forward hc₂ h₃
    exact ih c₃ _ hc₃ (by omega)
  · refine bind_eq_bind rfl fun _ c₁ h₁ => bind_eq_bind rfl fun _ c₂ h₂ =>
      bind_eq_bind rfl fun args c₃ h₃ => ?_
    obtain ⟨hc₁, hle₁⟩ := unhindered_advance.discard.forward hc h₁
    cases h₂
    obtain ⟨ts, hs, hargs⟩ := (ends_of_ok h₃).1 (arguments_reads hp _ hc₁ (Nat.lt_succ_self _))
    have hpos := hargs.length_pos rfl
    have hahead := hs.ahead
    exact ih c₃ _ (hs.closed hc₁) (by omega)
  · rfl

end

theorem parameters_suffices (hc : c.Closed) : Suffices parameters (c.ahead + 1) c := by
  refine .of_succ (suffices_of_round (f := fun n (_ : Unit) => parameters (n + 1))
    (fun c _ he m n => by rw [parameters_last he, parameters_last he]) (fun c _ m n hc ih => ?_)
    hc ())
  unfold parameters
  rw [kind_bind, kind_bind]
  split
  · rfl
  · refine bind_eq_bind rfl fun name c₁ h₁ => bind_eq_bind rfl fun _ c₂ h₂ => ?_
    obtain ⟨ts, hs, tok, rfl, -⟩ := (ends_of_ok h₁).1 (reads_expectName hc)
    have hahead := hs.ahead
    rw [List.length_singleton] at hahead
    obtain ⟨hc₂, hle⟩ := (unhindered_skipIf _).forward (hs.closed hc) h₂
    exact bind_eq_bind (ih c₂ () hc₂ (by omega)) fun _ _ _ => rfl

theorem statements_suffices {st : Parse Tree} (hst : Parses st .statement) (hc : c.Closed)
    (closes : Kind → Bool) : Suffices (statements st closes) (c.ahead + 1) c := by
  refine .of_succ (suffices_of_round (f := fun n (_ : Unit) => statements st closes (n + 1))
    (fun c _ he m n => by rw [statements_last he, statements_last he]) (fun c _ m n hc ih => ?_)
    hc ())
  unfold statements
  rw [kind_bind, kind_bind]
  split
  · rfl
  · split
    · rfl
    · refine bind_eq_bind rfl fun first c₁ h₁ => ?_
      obtain ⟨hc₁, hlt⟩ := hst.forward rfl hc h₁
      exact bind_eq_bind (ih c₁ () hc₁ hlt) fun _ _ _ => rfl

end Loops

theorem Chain.operand_parses (k : Chain) (hp : Parses p .primary) :
    Parses (k.operandParser p) k.operand := by
  cases k with
  | expression | comparison => exact hp
  | condition => exact chain_parses (k := .comparison) hp
  | grouped => exact expression_parses hp

/-- Every loop ends by itself that begins at the place: the statements of a program or of a body,
    the elements of an array, arguments, parameters, operators, and what follows a name.  Each loop
    is allowed one round for every token after the current one, or one more. -/
structure LoopsEnd (depth : Nat) (c : Cursor) : Prop where
  allowed : c.ahead ≤ c.later.length
  body : ∀ closes, Suffices (statements (statement depth) closes) (c.ahead + 1) c
  array : Suffices (elements (primary depth)) (c.ahead + 1) c
  call : Suffices (arguments (primary depth)) (c.ahead + 1) c
  signature : Suffices parameters (c.ahead + 1) c
  chain : ∀ (k : Chain) left, Suffices
    (fun rounds => chainRest (k.operandParser (primary depth)) k.joins k.join rounds left)
    c.ahead c
  name : ∀ base, Suffices (fun rounds => suffixes (primary depth) rounds base) c.ahead c

theorem loopsEnd (depth : Nat) (hc : c.Closed) : LoopsEnd depth c where
  allowed := hc.ahead_le
  body := statements_suffices (statement_parses depth) hc
  array := elements_suffices (primary_parses depth) hc
  call := arguments_suffices (primary_parses depth) hc
  signature := parameters_suffices hc
  chain k := chainRest_suffices (k.operand_parses (primary_parses depth)) hc
  name := suffixes_suffices (primary_parses depth) hc

/-! ## Token lists -/

/-- Limits above the number of tokens ahead make no difference. -/
theorem program_above {depth' : Nat} (hc : c.Closed) (h : c.ahead < depth) (h' : c.ahead < depth') :
    program depth c = program depth' c := by
  have hle : ∀ {m n : Nat}, c.ahead < m → m ≤ n → program m c = program n c := by
    intro m n hm hmn
    have hsame := (program_parallel hmn).same hc
    cases hrun : program m c with
    | ok t c' => exact ((ends_of_ok hrun).1 hsame).symm
    | error e c' =>
      have hdeep : e ≠ .tooDeep := (ends_of_error hrun).1 (program_unhindered m c hc hm)
      exact ((ends_of_error hrun).1 hsame hdeep).symm
  rcases Nat.le_total depth depth' with hd | hd
  · exact hle h hd
  · exact (hle h' hd).symm

/-- With a limit above the number of tokens there is a program or a complaint about a token. -/
theorem parseTokens_above (hc : ofList? c.tokens = some c) (hd : c.ahead < depth) :
    (∃ items, parseTokens depth c.tokens = .ok (.program (.list items))) ∨
      ∃ e, parseTokens depth c.tokens = .error e ∧ e.ArisesFrom c.tokens := by
  have hclosed := closed_of_ofList? hc
  have hreads := program_reads depth hclosed
  unfold Reads at hreads
  cases hrun : program depth c with
  | ok t c' =>
    obtain ⟨ts, -, hend, ht⟩ := (ends_of_ok hrun).1 hreads
    rw [hend] at ht
    cases ht with
    | @program _ items _ => exact Or.inl ⟨items, parseTokens_of_ok hc hrun⟩
  | error e c' =>
    have hdeep : e ≠ .tooDeep := (ends_of_error hrun).1 (program_unhindered depth c hclosed hd)
    have hblames := (ends_of_error hrun).1 hreads
    exact Or.inr ⟨e, parseTokens_of_error hc hrun, hblames.arisesFrom hdeep⟩

/-- If one list begins with the tokens of another up to its first end of input, then this is the
    first one of both. -/
theorem Continues.symm {d : Cursor} (hc : c.Closed)
    (h : Continues c.tokens (c.ahead + 1) d.tokens) :
    Continues d.tokens (d.ahead + 1) c.tokens := by
  obtain ⟨c', hs, hend⟩ := spans_beforeEnd hc
  obtain ⟨d', hs', hcur⟩ := Continues.spans h hs
  have hahead : d.ahead = c.ahead := by
    rw [Cursor.ahead, beforeEnd_eq hs' (hcur ▸ hend), Cursor.ahead]
  exact ⟨hc, by rw [hahead, h.take_eq]⟩

/-- What is parsed before the first end of input is parsed again, whatever comes after it. -/
theorem program_continued {d : Cursor} (depth : Nat) (hc : c.Closed) (hd : d.Closed)
    (h : Continues c.tokens (c.ahead + 1) d.tokens) : Ends (program depth) c
      (fun t _ => ∃ d', program depth d = .ok t d')
      fun e _ => e ≠ .tooDeep → ∃ d', program depth d = .error e d' := by
  have hagain : ∀ {c' : Cursor} {P : Cursor → Prop}, c.Again c' d P → ∃ d', P d' := by
    rintro c' P ⟨ts, hs, hP⟩
    have hahead := hs.ahead
    obtain ⟨d', hd', hcur⟩ := (h.mono (by omega)).spans hs
    exact ⟨d', hP d' hd' hcur⟩
  exact Ends.imp (program_parallel (Nat.le_refl depth) c d hc hd) (fun _ _ ht => hagain ht)
    fun _ _ he hdeep => hagain (he hdeep)

/-- Nothing after the first end of input matters. -/
theorem parseTokens_continued {tokens' : List Token} (hc : ofList? c.tokens = some c)
    (h : Continues c.tokens (c.ahead + 1) tokens') (depth : Nat) :
    parseTokens depth tokens' = parseTokens depth c.tokens := by
  obtain ⟨last, hl, hk⟩ := h.closed
  obtain ⟨d, hd, rfl, hdclosed⟩ := ofList?_eq hl hk
  have hclosed := closed_of_ofList? hc
  have hto := program_continued depth hclosed hdclosed h
  have hfrom := program_continued depth hdclosed hclosed (h.symm hclosed)
  cases hrun : program depth c with
  | ok t c' =>
    obtain ⟨d', hd'⟩ := (ends_of_ok hrun).1 hto
    rw [parseTokens_of_ok hc hrun, parseTokens_of_ok hd hd']
  | error e c' =>
    by_cases he : e = .tooDeep
    · -- a limit that is hit in one list is hit in the other, or the first would go on as well
      cases hrun' : program depth d with
      | ok t d' =>
        obtain ⟨c'', hc''⟩ := (ends_of_ok hrun').1 hfrom
        rw [parseTokens_of_ok hc hc'', parseTokens_of_ok hd hrun']
      | error e' d' =>
        by_cases he' : e' = .tooDeep
        · rw [parseTokens_of_error hc hrun, parseTokens_of_error hd hrun', he, he']
        · obtain ⟨c'', hc''⟩ := (ends_of_error hrun').1 hfrom he'
          rw [parseTokens_of_error hc hc'', parseTokens_of_error hd hrun']
    · obtain ⟨d', hd'⟩ := (ends_of_error hrun).1 hto he
      rw [parseTokens_of_error hc hrun, parseTokens_of_error hd hd']

/-- **Parsing goes forward and ends.**  Let a token list end with the end of input; its places are
    those up to the first end of input.  At each of them, what can be looked at are tokens of the
    list, and the next place is one of them.  From each, the parsers of statements, expressions,
    conditions, primaries and arrays give a tree at a later place, or they stop at a place that is
    not before it; and every loop that begins there ends by itself.  Calls nest no deeper than there
    are tokens: a limit on nesting above the number of tokens ahead does not stop these parsers, and
    the list is parsed under all such limits with the same result, which is a program, or a
    complaint about a token, or a number that cannot be read.  What comes after the first end of
    input is not looked at. -/
theorem parsing_ends {tokens : List Token} {last : Token} (hl : tokens.getLast? = some last)
    (hk : last.kind = .endOfInput) :
    (∀ i, (∃ c, IsAt tokens i c) ↔ i ≤ (beforeEnd tokens).length) ∧
    (∀ i c, IsAt tokens i c → StepsInside tokens i c ∧ ∀ depth,
      Proceeds tokens i depth (statement depth) c ∧
      Proceeds tokens i depth (expression (primary depth)) c ∧
      Proceeds tokens i depth (condition (primary depth)) c ∧
      Proceeds tokens i depth (primary depth) c ∧
      Proceeds tokens i depth (arrayLiteral (primary depth)) c ∧
      LoopsEnd depth c) ∧
    (beforeEnd tokens).length < tokens.length ∧
    (∀ depth, (beforeEnd tokens).length < depth →
      parseTokens depth tokens = parseTokens tokens.length tokens ∧
      ((∃ items, parseTokens depth tokens = .ok (.program (.list items))) ∨
        ∃ e, parseTokens depth tokens = .error e ∧ e.ArisesFrom tokens)) ∧
    ∀ tokens', Continues tokens ((beforeEnd tokens).length + 1) tokens' →
      ∀ depth, parseTokens depth tokens' = parseTokens depth tokens := by
  obtain ⟨start, hstart, rfl, hclosed⟩ := ofList?_eq hl hk
  have hlength : start.ahead < start.tokens.length := Nat.lt_succ_of_le hclosed.ahead_le
  refine ⟨fun i => exists_isAt_iff hclosed, fun i c h => ⟨h.stepsInside hclosed, fun depth => ?_⟩,
    hlength, fun depth hdepth => ⟨?_, parseTokens_above hstart hdepth⟩,
    fun tokens' h => parseTokens_continued hstart h⟩
  · have hp := primary_parses depth
    have hd := primary_unhindered depth
    exact ⟨(statement_parses depth).proceeds rfl (statement_unhindered depth) hclosed h,
      (expression_parses hp).proceeds rfl (expression_unhindered hd) hclosed h,
      (condition_parses hp).proceeds rfl (condition_unhindered hd) hclosed h,
      hp.proceeds rfl hd hclosed h,
      (arrayLiteral_parses hp).proceeds rfl
        ((arrayLiteral_unhindered hd).mono (Nat.le_succ depth)) hclosed h,
      loopsEnd depth (h.spans.closed hclosed)⟩
  · unfold parseTokens
    simp only [hstart, program_above hclosed hdepth hlength]

/-- The tokens of `return - not`, and a parenthesis after the first of two ends of input. -/
def cutShort : List Token :=
  [bare .returnKw "return", bare .minus "-", bare .notKw "not", bare .endOfInput "",
   bare .endParams ")", bare .endOfInput ""]

/-- A limit of three levels is too small for the three tokens, as the end of input is looked at
    inside them, and every larger limit is large enough. -/
theorem parsing_ends_cutShort :
    cutShort.getLast? = some (bare .endOfInput "") ∧
      (∃ c, IsAt cutShort 3 c) ∧ (¬∃ c, IsAt cutShort 4 c) ∧
      parseTokens 3 cutShort = .error .tooDeep ∧
      (∀ depth, 3 < depth → parseTokens depth cutShort =
        .error (.unexpected .inExpression (bare .endOfInput ""))) ∧
      ∀ tokens', Continues cutShort 4 tokens' → parseTokens 3 tokens' = .error .tooDeep := by
  have hlast : cutShort.getLast? = some (bare .endOfInput "") := rfl
  have hdeep : parseTokens 3 cutShort = .error .tooDeep := rfl
  have hrefused : parseTokens cutShort.length cutShort =
      .error (.unexpected .inExpression (bare .endOfInput "")) := rfl
  obtain ⟨hplaces, -, -, hlimit, hcontinued⟩ := parsing_ends hlast rfl
  refine ⟨hlast, (hplaces 3).2 (by decide), fun h => absurd ((hplaces 4).1 h) (by decide), hdeep,
    fun depth hdepth => ((hlimit depth hdepth).1).trans hrefused,
    fun tokens' h => (hcontinued tokens' h 3).trans hdeep⟩

end Grammar

end BoxScript
