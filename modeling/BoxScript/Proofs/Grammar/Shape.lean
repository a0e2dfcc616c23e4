/-
  The shape of parsed programs.

  * `Derives.shape`: what is derived from tokens that are spelled as their kinds demand is of
    proper shape;
  * `parse_outcome`: **a text is parsed to a program of proper shape, or there is an error** of
    the text, of a token or of the depth of nesting.
-/
import BoxScript.Proofs.Grammar.Soundness
import BoxScript.Proofs.Token.Spelling
import BoxScript.Proofs.Tree.Proper

namespace BoxScript

namespace Grammar

/-- The shape that a form gives to its trees. -/
def Form.Shape : Form → Tree → Prop
  | .elements | .arguments | .body => Tree.ProperItems
  | .parameters => Tree.TextItems
  | _ => Tree.Proper

/-- A list of proper trees, as the rules of the grammar give it. -/
theorem properItems_list {items : List Tree} :
    (Tree.list items).ProperItems ↔ ∀ t ∈ items, t.Proper := by
  constructor
  · rintro ⟨_, ⟨⟩, h⟩
    exact h
  · exact fun h => ⟨items, rfl, h⟩

theorem properItems_cons {t : Tree} {items : List Tree} (ht : t.Proper)
    (h : (Tree.list items).ProperItems) : (Tree.list (t :: items)).ProperItems :=
  properItems_list.2 (List.forall_mem_cons.2 ⟨ht, properItems_list.1 h⟩)

theorem textItems_cons {s : String} {items : List Tree} (h : (Tree.list items).TextItems) :
    (Tree.list (.text s :: items)).TextItems := by
  obtain ⟨texts, ⟨⟩⟩ := h
  exact ⟨s :: texts, rfl⟩

theorem Form.Shape.operand {k : Chain} {t : Tree} (h : k.operand.Shape t) : t.Proper := by
  cases k <;> exact h

/-- An operator of a chain makes a proper tree of proper operands. -/
theorem Chain.join_proper {k : Chain} {op : Token} {left right : Tree} (ho : k.joins op.kind = true)
    (hop : op.Spelled) (hl : left.Proper) (hr : right.Proper) :
    (k.join (.text op.text) left right).Proper := by
  cases k with
  | expression =>
    rcases Bool.or_eq_true _ _ ▸ ho with ha | hc
    · exact .binary (Or.inr (hop.arithmetic ha)) hl hr
    · exact .binary (Or.inl (hop.comparison hc)) hl hr
  | comparison => exact .comparison (hop.comparison ho) hl hr
  | condition => exact .logical (hop.logical ho) hl hr
  | grouped => exact .logical (hop.logical ho) hl hr

theorem turned_proper {keyword negated : Kind} {test : Tree} (h : test.Proper) :
    (turned keyword negated test).Proper := by
  unfold turned
  split
  · exact .not h
  · exact h

theorem assignment_proper {target value : Tree} (ht : target.Proper)
    (hs : (∃ x, target = .identifier x) ∨ ∃ a i, target = .arrayAccess a i) (hv : value.Proper) :
    (Tree.assignmentExpression target value).Proper := by
  rcases hs with ⟨x, rfl⟩ | ⟨a, i, rfl⟩
  · cases ht with | identifier s => exact .assign hv
  · cases ht with | access ha hi => exact .store ha hi hv

/-- **What is derived is of proper shape**, if the tokens are spelled as their kinds demand. -/
theorem Derives.shape {form : Form} {ts : List Token} {next : Kind} {t : Tree}
    (h : Derives form ts next t) (hts : ∀ tok ∈ ts, tok.Spelled) : form.Shape t := by
  induction h with
  -- primaries
  | named _ _ _ ih | literal _ ih => exact ih hts
  | number => exact .number _
  | string => exact .string _
  | boolean => exact .boolean _
  | group _ _ _ ih => exact ih fun t ht => hts t (by simp [ht])
  | negative hs _ _ ih =>
    exact .negation ((hts _ (by simp)).minus hs) (ih fun t ht => hts t (by simp [ht]))
  | not _ _ ih => exact .not (ih fun t ht => hts t (by simp [ht]))
  -- names
  | name => exact .identifier _
  | index _ _ _ _ ih ih' =>
    exact .access (ih fun t ht => hts t (by simp [ht])) (ih' fun t ht => hts t (by simp [ht]))
  | call _ _ _ ih ih' =>
    have hargs := ih' fun t ht => hts t (by simp [ht])
    exact .call (ih fun t ht => hts t (by simp [ht])) (properItems_list.1 hargs)
  -- chains
  | first _ ih => exact (ih hts).operand
  | joined _ ho _ ih ih' =>
    have hr := ih' fun t ht => hts t (by simp [ht])
    exact Chain.join_proper ho (hts _ (by simp)) (ih fun t ht => hts t (by simp [ht])) hr.operand
  | chain _ _ ih => exact ih hts
  -- lists
  | array _ _ ih => exact .array (properItems_list.1 (ih fun t ht => hts t (by simp [ht])))
  | noElement | noArgument | empty => exact properItems_list.2 (by simp)
  | element _ _ _ _ ih ih' | argument _ _ _ _ ih ih' | more _ _ ih ih' =>
    exact properItems_cons (ih fun t ht => hts t (by simp [ht]))
      (ih' fun t ht => hts t (by simp [ht]))
  | noParameter => exact ⟨[], rfl⟩
  | parameter _ _ _ ih => exact textItems_cons (ih fun t ht => hts t (by simp [ht]))
  -- statements
  | box => exact .declaration (by simp [Tree.isAbsent])
  | boxSet _ _ _ _ _ ih | noChange _ _ _ _ _ ih | boxes _ _ _ _ _ ih =>
    exact .declaration fun _ => ih fun t ht => hts t (by simp [ht])
  | function _ _ _ _ _ _ _ ih ih' =>
    obtain ⟨texts, ⟨⟩⟩ := ih fun t ht => hts t (by simp [ht])
    exact .function (properItems_list.1 (ih' fun t ht => hts t (by simp [ht])))
  | ifThen _ _ _ _ _ ih ih' =>
    exact .ifThen (turned_proper (ih fun t ht => hts t (by simp [ht])))
      (properItems_list.1 (ih' fun t ht => hts t (by simp [ht])))
  | ifElse _ _ _ _ _ _ _ _ ih ih' ih'' =>
    exact .ifElse (turned_proper (ih fun t ht => hts t (by simp [ht])))
      (properItems_list.1 (ih' fun t ht => hts t (by simp [ht])))
      (properItems_list.1 (ih'' fun t ht => hts t (by simp [ht])))
  | whileDo _ _ _ _ _ ih ih' =>
    exact .whileDo (turned_proper (ih fun t ht => hts t (by simp [ht])))
      (properItems_list.1 (ih' fun t ht => hts t (by simp [ht])))
  | forTo _ _ _ _ _ _ _ _ _ ih ih' ih'' =>
    exact .forTo (ih fun t ht => hts t (by simp [ht])) (ih' fun t ht => hts t (by simp [ht]))
      (properItems_list.1 (ih'' fun t ht => hts t (by simp [ht])))
  | returnNull => exact .returning (by simp [Tree.isAbsent])
  | returnValue _ _ _ ih => exact .returning fun _ => ih fun t ht => hts t (by simp [ht])
  | assign _ hs _ _ _ ih ih' =>
    exact assignment_proper (ih fun t ht => hts t (by simp [ht])) hs
      (ih' fun t ht => hts t (by simp [ht]))
  | callOnly _ _ _ ih => exact ih hts
  | program _ ih => exact .program (properItems_list.1 (ih hts))

/-- A program that is derived consists of proper statements. -/
theorem Derives.program_items {ts : List Token} {next : Kind} {t : Tree}
    (h : Derives .program ts next t) (hts : ∀ tok ∈ ts, tok.Spelled) :
    ∃ items, t = .program (.list items) ∧ ∀ i ∈ items, i.Proper := by
  cases h with | program h => exact ⟨_, rfl, properItems_list.1 (Derives.shape h hts)⟩

/-- What stops the parser, if the tokens are spelled as their kinds demand: every number among
    them can be read. -/
theorem blames_cases {c c' : Cursor} {e : Obstacle} (h : Blames c e c')
    (hts : ∀ tok ∈ c.tokens, tok.Spelled) :
    e = .tooDeep ∨ ∃ complaint token, e = .unexpected complaint token := by
  obtain ⟨ts, hs, rfl | ⟨complaint, rfl⟩ | ⟨tok, ht, hk, hn, -⟩⟩ := h
  · exact Or.inl rfl
  · exact Or.inr ⟨complaint, _, rfl⟩
  · have hmem : tok ∈ c.tokens := by
      rw [hs.eq]
      exact List.mem_append_left _ ht
    have hread := (hts tok hmem).number hk
    rw [hn] at hread
    cases hread

/-- The outcomes of parsing tokens that are spelled as their kinds demand. -/
theorem parseTokens_outcome {tokens : List Token} {last : Token}
    (hl : tokens.getLast? = some last) (hk : last.kind = .endOfInput)
    (hts : ∀ tok ∈ tokens, tok.Spelled) (depth : Nat) :
    (∃ items, parseTokens depth tokens = .ok (.program (.list items)) ∧ ∀ t ∈ items, t.Proper) ∨
      parseTokens depth tokens = .error .tooDeep ∨
      ∃ complaint token, parseTokens depth tokens = .error (.unexpected complaint token) := by
  obtain ⟨c, hc, rfl, hclosed⟩ := Cursor.ofList?_eq hl hk
  have hreads := program_reads depth hclosed
  unfold parseTokens
  simp only [hc]
  unfold Reads at hreads
  cases hrun : program depth c with
  | ok t c₁ =>
    rw [ends_of_ok hrun] at hreads
    obtain ⟨ts, hs, -, ht⟩ := hreads
    obtain ⟨items, rfl, hitems⟩ := ht.program_items fun tok htok =>
      hts tok (hs.eq ▸ List.mem_append_left _ htok)
    exact Or.inl ⟨items, rfl, hitems⟩
  | error e c₁ =>
    rw [ends_of_error hrun] at hreads
    rcases blames_cases hreads hts with rfl | ⟨complaint, token, rfl⟩
    · exact Or.inr (Or.inl rfl)
    · exact Or.inr (Or.inr ⟨complaint, token, rfl⟩)

end Grammar

/-- Why a text has no tree: a malformed lexeme, a token that the grammar does not allow, or
    nesting beyond the limit. -/
inductive SyntaxError.OfText : SyntaxError → Prop
  | lexical (e : LexError) : OfText (.lexical e)
  | unexpected (complaint : Complaint) (token : Token) :
      OfText (.grammatical (.unexpected complaint token))
  | tooDeep : OfText (.grammatical .tooDeep)

/-- **A text is parsed to a program of proper shape, or has an error of a text.** -/
theorem parse_outcome (depth : Nat) (source : String) :
    (∃ items, parse depth source = .ok (.program (.list items)) ∧ ∀ t ∈ items, t.Proper) ∨
      ∃ e, parse depth source = .error e ∧ e.OfText := by
  unfold parse
  cases hscan : scan source with
  | error e => exact Or.inr ⟨_, rfl, .lexical e⟩
  | ok lexemes =>
    obtain ⟨hspelled, last, hl, hk⟩ := scan_spelled hscan
    have hlast : (lexemes.map Lexeme.token).getLast? = some last.token := by
      rw [List.getLast?_map, hl]
      rfl
    have hts : ∀ tok ∈ lexemes.map Lexeme.token, tok.Spelled := by
      simpa using hspelled
    rcases Grammar.parseTokens_outcome hlast hk hts depth with
      ⟨items, h, hitems⟩ | h | ⟨complaint, token, h⟩
    · exact Or.inl ⟨items, by simp only [h], hitems⟩
    · exact Or.inr ⟨_, by simp only [h], .tooDeep⟩
    · exact Or.inr ⟨_, by simp only [h], .unexpected complaint token⟩

end BoxScript
