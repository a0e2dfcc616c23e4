/-
  Programs of a text, and the names in them.

  * `derives_of_parse`: a program that is parsed from a text is derived from the tokens of it;
  * `Derives.names_mem`: the names that it declares are those of tokens;
  * `parse_properIn`: **a text is parsed to a program of proper shape that declares names of one
    line**, since of the tokens only strings can hold a line feed.
-/
import BoxScript.Proofs.Grammar.Context
import BoxScript.Proofs.Grammar.Shape
import BoxScript.Proofs.Text.OneLine
import BoxScript.Proofs.Token.Division
import BoxScript.Proofs.Tree.Names

namespace BoxScript

open Grammar

/-! ## Derivation from the tokens of a text -/

/-- The end of input is not among the tokens of a text. -/
theorem Divided.inside {rest cs : List Char} {p : Position} {tokens : List Lexeme}
    (h : Divided rest p cs tokens) : ∀ l ∈ tokens, l.kind ≠ .endOfInput := by
  induction h with
  | done => simp
  | token _ hm _ ih =>
    rintro l hl
    rcases List.mem_cons.1 hl with rfl | hl
    · exact hm.ne_endOfInput
    · exact ih l hl

/-- A program that is parsed from tokens before the end of input is derived from them. -/
theorem derives_of_parseTokens {depth : Nat} {ts : List Token} {last : Token} {p : Tree}
    (hin : ∀ tok ∈ ts, tok.kind ≠ .endOfInput) (hk : last.kind = .endOfInput)
    (h : parseTokens depth (ts ++ [last]) = .ok p) : Derives .program ts .endOfInput p := by
  have hlast : (ts ++ [last]).getLast? = some last := List.getLast?_concat
  obtain ⟨c, hc, htokens, hclosed⟩ := Cursor.ofList?_eq hlast hk
  have hreads := program_reads depth hclosed
  unfold Reads at hreads
  simp only [parseTokens, hc] at h
  cases hrun : program depth c with
  | error e c' =>
    simp only [hrun] at h
    cases h
  | ok tree c' =>
    simp only [hrun] at h
    cases h
    rw [ends_of_ok hrun] at hreads
    obtain ⟨ts', hs, hend, hp⟩ := hreads
    have hspans : c.Spans ts ⟨last, []⟩ := ⟨htokens, hin⟩
    rwa [← beforeEnd_eq hs hend, beforeEnd_eq hspans hk, hend] at hp

/-- The statements of a text that is parsed are derived from its tokens. -/
theorem derives_of_parse {depth : Nat} {source : String} {p : Tree}
    (h : parse depth source = .ok p) :
    ∃ tokens items, Divided [] .start source.toList tokens ∧ p = .program (.list items) ∧
      Derives .body (tokens.map Lexeme.token) .endOfInput (.list items) := by
  unfold parse at h
  split at h
  · cases h
  · next lexemes hscan =>
    obtain ⟨tokens, hd, rfl⟩ := scan_eq_ok_iff.1 hscan
    rw [List.map_append] at h
    split at h
    · cases h
    · next tree hparse =>
      cases h
      have hin : ∀ tok ∈ tokens.map Lexeme.token, tok.kind ≠ .endOfInput := by
        intro tok htok
        obtain ⟨l, hl, rfl⟩ := List.mem_map.1 htok
        exact hd.inside l hl
      cases derives_of_parseTokens hin rfl hparse with
      | program hbody => exact ⟨tokens, _, hd, rfl, hbody⟩

/-! ## Tokens without a line feed -/

theorem ne_lineFeed_of_isAlphanum {c : Char} (h : c.isAlphanum = true) : c ≠ '\n' := by
  rintro rfl
  cases h

/-- A token that is no string holds no line feed. -/
theorem LongestMatch.lineFeed_not_mem {rest content cs : List Char} {k : Kind}
    (h : LongestMatch rest k content cs) (hk : k ≠ .string) : '\n' ∉ content := by
  cases h with
  | string => exact absurd rfl hk
  | @pair c d _ h =>
    have htable : ∀ p ∈ Kind.pairOperators, '\n' ∉ [p.1.1, p.1.2] := by decide
    exact htable ((c, d), k) (Kind.mem_of_lookup h)
  | @single c _ h =>
    have htable : ∀ p ∈ Kind.singleOperators, '\n' ∉ [p.1] := by decide
    exact htable (c, k) (Kind.mem_of_lookup h)
  | number h =>
    intro hc
    rcases h.digit_or_point hc with hd | hd <;> cases hd
  | word hc hs =>
    intro hmem
    rcases List.mem_cons.1 hmem with rfl | hmem
    · cases hc
    · exact ne_lineFeed_of_isAlphanum (hs _ hmem) rfl

theorem Divided.oneLine {rest cs : List Char} {p : Position} {tokens : List Lexeme}
    (h : Divided rest p cs tokens) : ∀ l ∈ tokens, l.kind ≠ .string → Text.OneLine l.text := by
  induction h with
  | done => simp
  | token _ hm _ ih =>
    intro l hl
    rcases List.mem_cons.1 hl with rfl | hl
    · exact hm.lineFeed_not_mem
    · exact ih l hl

theorem Token.IsName.ne_string {t : Token} (h : t.IsName) : t.kind ≠ .string := by
  intro hk
  rcases h with h | h
  · cases h.symm.trans hk
  · rw [Token.isWordOperator, hk] at h
    cases h

/-! ## Names -/

namespace Grammar

/-- The names in a tree of a form: those of parameters, or those that are declared. -/
def Form.names : Form → Tree → List String
  | .parameters => Tree.paramTexts
  | _ => Tree.declared

theorem Form.names_operand (k : Chain) (t : Tree) : k.operand.names t = t.declared := by
  cases k <;> rfl

theorem Chain.declared_join (k : Chain) (op left right : Tree) :
    (k.join op left right).declared = left.declared ++ right.declared := by
  cases k <;> rfl

theorem declared_turned {W : String → Prop} {keyword negated : Kind} {test : Tree}
    (h : ∀ n ∈ test.declared, W n) : ∀ n ∈ (turned keyword negated test).declared, W n := by
  unfold turned
  split
  · exact List.forall_mem_append.2 ⟨h, by simp [Tree.declared]⟩
  · exact h

/-- **The names that a derived tree declares are those of tokens.** -/
theorem Derives.names_mem {W : String → Prop} {form : Form} {ts : List Token} {next : Kind}
    {t : Tree} (h : Derives form ts next t) (hts : ∀ tok ∈ ts, tok.IsName → W tok.text) :
    ∀ n ∈ form.names t, W n := by
  induction h with
  -- primaries and names
  | named _ _ _ ih | literal _ ih => exact ih hts
  | number | string | boolean | name => simp [Form.names, Tree.declared]
  | group _ _ _ ih | negative _ _ _ ih => exact ih fun t ht => hts t (by simp [ht])
  | not _ _ ih =>
    refine List.forall_mem_append.2 ⟨ih fun t ht => hts t (by simp [ht]), ?_⟩
    simp [Tree.declared]
  | index _ _ _ _ ih ih' | call _ _ _ ih ih' =>
    exact List.forall_mem_append.2
      ⟨ih fun t ht => hts t (by simp [ht]), ih' fun t ht => hts t (by simp [ht])⟩
  -- chains
  | first _ ih =>
    have hoperand := ih hts
    rw [Form.names_operand] at hoperand
    exact hoperand
  | joined _ _ _ ih ih' =>
    have hright := ih' fun t ht => hts t (by simp [ht])
    rw [Form.names_operand] at hright
    show ∀ n ∈ (Chain.join _ _ _ _).declared, W n
    rw [Chain.declared_join]
    exact List.forall_mem_append.2 ⟨ih fun t ht => hts t (by simp [ht]), hright⟩
  | chain _ _ ih => exact ih hts
  -- lists
  | array _ _ ih => exact ih fun t ht => hts t (by simp [ht])
  | noElement | noArgument | noParameter | empty =>
    simp [Form.names, Tree.declared, Tree.declaredIn, Tree.paramTexts]
  | element _ _ _ _ ih ih' | argument _ _ _ _ ih ih' | more _ _ ih ih' =>
    exact List.forall_mem_append.2
      ⟨ih fun t ht => hts t (by simp [ht]), ih' fun t ht => hts t (by simp [ht])⟩
  | parameter h _ _ ih =>
    exact List.forall_mem_append.2
      ⟨List.forall_mem_singleton.2 (hts _ (by simp) h), ih fun t ht => hts t (by simp [ht])⟩
  -- statements
  | box _ hn => simpa [Form.names, Tree.declared, Tree.nameText] using hts _ (by simp) hn
  | boxSet _ hn _ _ _ ih | noChange _ hn _ _ _ ih | boxes _ hn _ _ _ ih =>
    exact List.forall_mem_append.2
      ⟨List.forall_mem_singleton.2 (hts _ (by simp) hn), ih fun t ht => hts t (by simp [ht])⟩
  | function _ hn _ _ _ _ _ ih ih' =>
    have hname := List.forall_mem_singleton.2 (hts _ (by simp) hn)
    exact List.forall_mem_append.2 ⟨hname, List.forall_mem_append.2
      ⟨ih fun t ht => hts t (by simp [ht]), ih' fun t ht => hts t (by simp [ht])⟩⟩
  | ifThen _ _ _ _ _ ih ih' =>
    have htest := ih fun t ht => hts t (by simp [ht])
    refine List.forall_mem_append.2 ⟨declared_turned htest, List.forall_mem_append.2
      ⟨ih' fun t ht => hts t (by simp [ht]), ?_⟩⟩
    simp [Tree.declared]
  | ifElse _ _ _ _ _ _ _ _ ih ih' ih'' =>
    have htest := ih fun t ht => hts t (by simp [ht])
    exact List.forall_mem_append.2 ⟨declared_turned htest, List.forall_mem_append.2
      ⟨ih' fun t ht => hts t (by simp [ht]), ih'' fun t ht => hts t (by simp [ht])⟩⟩
  | whileDo _ _ _ _ _ ih ih' =>
    have htest := ih fun t ht => hts t (by simp [ht])
    exact List.forall_mem_append.2
      ⟨declared_turned htest, ih' fun t ht => hts t (by simp [ht])⟩
  | forTo _ hn _ _ _ _ _ _ _ ih ih' ih'' =>
    have hname := List.forall_mem_singleton.2 (hts _ (by simp) hn)
    exact List.forall_mem_append.2 ⟨hname, List.forall_mem_append.2
      ⟨ih fun t ht => hts t (by simp [ht]), List.forall_mem_append.2
        ⟨ih' fun t ht => hts t (by simp [ht]), ih'' fun t ht => hts t (by simp [ht])⟩⟩⟩
  | returnNull => simp [Form.names, Tree.declared]
  | returnValue _ _ _ ih => exact ih fun t ht => hts t (by simp [ht])
  | assign _ _ _ _ _ ih ih' =>
    exact List.forall_mem_append.2
      ⟨ih fun t ht => hts t (by simp [ht]), ih' fun t ht => hts t (by simp [ht])⟩
  | callOnly _ _ _ ih | program _ ih => exact ih hts

end Grammar

/-- **A text is parsed to a program of proper shape that declares names of one line.** -/
theorem parse_properIn {depth : Nat} {source : String} {p : Tree}
    (h : parse depth source = .ok p) : ∃ items, p = .program (.list items) ∧
      ∀ t ∈ items, t.ProperIn Text.OneLine := by
  obtain ⟨tokens, items, hd, rfl, hbody⟩ := derives_of_parse h
  have hproper : ∀ t ∈ items, t.Proper := by
    rcases parse_outcome depth source with ⟨items', hparse, hitems⟩ | ⟨e, hparse, -⟩
    · cases h.symm.trans hparse
      exact hitems
    · cases h.symm.trans hparse
  refine ⟨items, rfl, Tree.properIn_items hproper (hbody.names_mem fun tok htok hname => ?_)⟩
  obtain ⟨l, hl, rfl⟩ := List.mem_map.1 htok
  exact hd.oneLine l hl hname.ne_string

end BoxScript
