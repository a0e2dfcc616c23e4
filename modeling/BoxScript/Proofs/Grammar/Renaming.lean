/-
  Operators that are spelled as words serve as names.

  A word like `add` is an operator after an operand, and a name where no operator can stand.  So
  wherever an identifier stands such a word can stand, if no operand comes right before it.

  * `Renaming`: what identifiers are replaced by, and `Renaming.token` and `Renaming.tree`: what
    this makes of a token and of a tree;
  * `Arranged.renamed`: the renamed tokens make up the renamed tree;
  * `parseTokens_renamed`: **the renamed tokens are parsed to the renamed tree.**
-/
import BoxScript.Proofs.Grammar.Joining
import BoxScript.Proofs.Tree.Rewriting

namespace BoxScript

/-- What identifiers are replaced by, according to their texts: by other identifiers, or by
    operators that are spelled as words.  But `subtract` is also a sign before an operand, and
    `equal` makes an assignment of a call. -/
structure Renaming where
  text : String → String
  kind : String → Kind
  serves : ∀ s, kind s = .identifier ∨
    (text s, kind s) ∈ Kind.keywords ∧ (kind s).isOperator = true ∧
      text s ≠ "subtract" ∧ text s ≠ "equal"

namespace Renaming

variable (ρ : Renaming)

/-- The token that takes the place of a token. -/
def token (tok : Token) : Token :=
  if tok.kind = .identifier then
    { tok with kind := ρ.kind tok.text, text := ρ.text tok.text }
  else tok

/-- The name that takes the place of a name. -/
def name : Tree → Tree
  | .text s => .text (ρ.text s)
  | t => t

/-- The parameters that take the place of parameters. -/
def parameters : Tree → Tree
  | .list names => .list (names.map ρ.name)
  | t => t

/-- A node with other names: those of variables, declarations, loops and parameters. -/
def node : Tree → Tree
  | .identifier symbol => .identifier (ρ.name symbol)
  | .variableDeclaration name initializer constant isArray =>
    .variableDeclaration (ρ.name name) initializer constant isArray
  | .functionDeclaration name params body =>
    .functionDeclaration (ρ.name name) (ρ.parameters params) body
  | .forStatement loopVar start stop body => .forStatement (ρ.name loopVar) start stop body
  | t => t

/-- A tree with other names, and nothing else changed. -/
def tree : Tree → Tree := Tree.rewrite ρ.node

/-! ## Tokens -/

variable {tok : Token} {k : Kind}

/-- Each word operator but two is a name that neither is a sign nor makes an assignment. -/
theorem keywords_serve : ∀ p ∈ Kind.keywords, p.2.isOperator = true →
    p.1 ≠ "subtract" → p.1 ≠ "equal" →
      p.2 ≠ .minus ∧ p.2 ≠ .equals ∧ Text.isWord p.1 = true := by
  decide

theorem kind_cases (s : String) :
    ρ.kind s = .identifier ∨ (ρ.kind s).isOperator = true ∧ ρ.kind s ≠ .minus ∧
      ρ.kind s ≠ .equals ∧ Text.isWord (ρ.text s) = true := by
  refine (ρ.serves s).imp_right fun ⟨hmem, hop, hsub, heq⟩ => ⟨hop, ?_⟩
  exact keywords_serve _ hmem hop hsub heq

theorem token_of_ne (h : tok.kind ≠ .identifier) : ρ.token tok = tok := if_neg h

theorem token_of_identifier (h : tok.kind = .identifier) :
    ρ.token tok = { tok with kind := ρ.kind tok.text, text := ρ.text tok.text } := if_pos h

theorem kind_token (h : tok.kind = k) (hk : k ≠ .identifier := by simp) :
    (ρ.token tok).kind = k := by
  rw [ρ.token_of_ne (h ▸ hk), h]

theorem kind_keyword {k' : Kind} (h : tok.kind = k ∨ tok.kind = k')
    (hk : k ≠ .identifier := by simp) (hk' : k' ≠ .identifier := by simp) :
    (ρ.token tok).kind = tok.kind :=
  ρ.kind_token rfl (h.elim (· ▸ hk) (· ▸ hk'))

/-- A name that is no word operator is renamed. -/
theorem name_renamed (h : tok.IsName) (hw : tok.isWordOperator = false) :
    (ρ.token tok).IsName ∧ (ρ.token tok).text = ρ.text tok.text := by
  have hk : tok.kind = .identifier := h.resolve_right (by simp [hw])
  rw [ρ.token_of_identifier hk]
  refine ⟨(ρ.kind_cases tok.text).imp id fun ⟨hop, _, _, hword⟩ => ?_, rfl⟩
  simp [Token.isWordOperator, hop, hword]

/-! ## Trees -/

theorem tree_list (items : List Tree) : ρ.tree (.list items) = .list (items.map ρ.tree) :=
  Tree.rewrite_list ρ.node items

theorem tree_join (chain : Grammar.Chain) (operator : String) (left right : Tree) :
    ρ.tree (chain.join (.text operator) left right) =
      chain.join (.text operator) (ρ.tree left) (ρ.tree right) := by
  cases chain <;> rfl

theorem tree_turned (keyword negated : Kind) (test : Tree) :
    ρ.tree (Grammar.turned keyword negated test) =
      Grammar.turned keyword negated (ρ.tree test) := by
  unfold Grammar.turned
  split <;> rfl

/-! Nodes that hold lists -/

theorem tree_call (base : Tree) (args : List Tree) :
    ρ.tree (.callExpression base (.list args)) =
      .callExpression (ρ.tree base) (.list (args.map ρ.tree)) := by
  rw [← ρ.tree_list]
  rfl

theorem tree_array (items : List Tree) :
    ρ.tree (.arrayLiteral (.list items)) = .arrayLiteral (.list (items.map ρ.tree)) := by
  rw [← ρ.tree_list]
  rfl

theorem tree_block (items : List Tree) :
    ρ.tree (.block (.list items)) = .block (.list (items.map ρ.tree)) := by
  rw [← ρ.tree_list]
  rfl

end Renaming

namespace Grammar

variable {N : Kind → Prop} {form : Form} {ts : List Token} {next : Kind} {t : Tree}

/-- What a tree becomes.  Parameters are names by themselves. -/
def Form.renamed (ρ : Renaming) : Form → Tree → Tree
  | .parameters => ρ.parameters
  | _ => ρ.tree

theorem Chain.renamed_operand (ρ : Renaming) (k : Chain) : k.operand.renamed ρ = ρ.tree := by
  cases k <;> rfl

/-! ## What comes after -/

/-- Only an identifier is replaced. -/
theorem leading_renamed (ρ : Renaming) (h : leading ts next ≠ .identifier) :
    leading (ts.map ρ.token) next = leading ts next := by
  cases ts with
  | nil => rfl
  | cons tok ts => exact ρ.kind_token rfl h

theorem Optional.renamed (ρ : Renaming) {k : Kind} (h : Optional k ts) (hk : k ≠ .identifier) :
    Optional k (ts.map ρ.token) := by
  cases h with
  | absent => exact .absent
  | present h => exact .present (ρ.kind_token h hk)

theorem Separator.ne_identifier {k : Kind} (h : Separator k ts) :
    ∀ tok ∈ ts, tok.kind ≠ .identifier := by
  cases h with
  | absent => simp
  | @present tok h =>
    simp only [List.mem_singleton, forall_eq]
    intro hk
    have hstarts := h.2.2
    rw [hk] at hstarts
    cases hstarts

theorem Separator.renamed (ρ : Renaming) {sep : List Token}
    (h : Separator (leading ts next) sep) (hend : leading (sep ++ ts) next ≠ .identifier) :
    Separator (leading (ts.map ρ.token) next) (sep.map ρ.token) := by
  cases h with
  | absent h =>
    rw [List.nil_append] at hend
    rw [leading_renamed ρ hend]
    exact .absent h
  | present h =>
    rw [List.map_singleton, ρ.token_of_ne hend]
    exact .present h

/-- A statement may be followed by a name that was an identifier. -/
theorem Derives.before_renamed {ts' : List Token} (ρ : Renaming)
    (h : Derives .statement ts (leading ts' next) t) :
    Derives .statement ts (leading (ts'.map ρ.token) next) t := by
  by_cases hk : leading ts' next = .identifier
  · cases ts' with
    | nil => exact h
    | cons tok ts' =>
      have htok : tok.kind = .identifier := hk
      have hkind : leading ((tok :: ts').map ρ.token) next = ρ.kind tok.text := by
        rw [List.map_cons, ρ.token_of_identifier htok]
        rfl
      rw [hkind]
      rcases ρ.kind_cases tok.text with he | ⟨hop, -, heq, -⟩
      · rw [he, ← htok]
        exact h
      · refine h.statement_before ?_ fun _ => heq
        rintro (ho | ho) <;> simp [ho, Kind.isOperator, Kind.isArithmetic, Kind.isComparison] at hop
  · rwa [leading_renamed ρ hk]

/-! ## Derivations -/

/-- An element or argument ends where it did: before a separator, a bracket that closes the list,
    or the next one, which does not begin with a name. -/
theorem Arranged.leading_ne_identifier (hN : ¬N .identifier) {sep : List Token}
    {items : List Tree} (h : Arranged N form ts next (.list items))
    (hf : form = .elements ∨ form = .arguments) (hs : ∀ tok ∈ sep, tok.kind ≠ .identifier)
    (ha : sep = [] → items = [] ∨ N (leading ts next)) :
    leading (sep ++ ts) next ≠ .identifier := by
  cases sep with
  | cons tok sep => exact hs tok (by simp)
  | nil =>
    rcases ha rfl with rfl | hk
    · rcases hf with rfl | rfl
      · cases h with
        | noElement h => simp [leading, h]
      · cases h with
        | noArgument h => simp [leading, h]
    · exact fun he => hN (he ▸ hk)

/-- **Renamed tokens make up the renamed tree.** -/
theorem Arranged.renamed (ρ : Renaming) (hN : ¬N .identifier) (h : Arranged N form ts next t)
    (hw : ∀ tok ∈ ts, tok.isWordOperator = false) :
    Derives form (ts.map ρ.token) next (form.renamed ρ t) := by
  induction h with
  | @named name ts next t h hn hm ih =>
    -- no identifier becomes a sign
    refine .named (ih hw) hn fun hk => ?_
    by_cases hname : name.kind = .identifier
    · rw [ρ.token_of_identifier hname] at hk
      rcases ρ.kind_cases name.text with hkind | ⟨-, hminus, -⟩
      · simp [hkind] at hk
      · exact absurd hk hminus
    · rw [ρ.token_of_ne hname] at hk
      rw [leading_renamed ρ (by simp [hm hk]), hm hk]
  | number h hx =>
    rw [List.map_singleton, ρ.token_of_ne (by simp [h])]
    exact .number h hx
  | string h =>
    rw [List.map_singleton, ρ.token_of_ne (by simp [h])]
    exact .string h
  | boolean h =>
    rw [List.map_singleton, ρ.token_of_ne (by simp [h])]
    exact .boolean h
  | literal _ ih => exact .literal (ih hw)
  | group ho _ hc ih =>
    simp only [List.forall_mem_cons, List.forall_mem_append] at hw
    obtain ⟨-, hts, -⟩ := hw
    simp only [List.map_cons, List.map_append, List.map_nil]
    exact .group (ρ.kind_token ho) (ih hts) (ρ.kind_token hc)
  | negative hs _ _ ih =>
    rw [List.forall_mem_cons] at hw
    rw [List.map_cons, ρ.token_of_ne (by simp [hs])]
    exact .negative hs (by simp [hw.1]) (ih hw.2)
  | not hk _ ih =>
    rw [List.forall_mem_cons] at hw
    exact .not (ρ.kind_token hk) (ih hw.2)
  | @name name next h =>
    obtain ⟨hn, htext⟩ := ρ.name_renamed h (hw name (by simp))
    have hname : Derives .named [ρ.token name] next _ := .name hn
    rw [htext] at hname
    exact hname
  | index _ ho _ hc ih ih' =>
    simp only [List.forall_mem_cons, List.forall_mem_append] at hw
    obtain ⟨hts, -, hts', -⟩ := hw
    simp only [List.map_cons, List.map_append, List.map_nil]
    exact .index (ih hts) (ρ.kind_token ho) (ih' hts') (ρ.kind_token hc)
  | call _ ho _ ih ih' =>
    simp only [List.forall_mem_cons, List.forall_mem_append] at hw
    obtain ⟨hts, -, hts'⟩ := hw
    simp only [Form.renamed, ρ.tree_list, ρ.tree_call, List.map_cons, List.map_append] at ih' ⊢
    exact .call (ih hts) (ρ.kind_token ho) (ih' hts')
  | first _ ih =>
    rw [Chain.renamed_operand] at ih
    exact .first (ih hw)
  | @joined k ts op ts' next left right _ ho _ ih ih' =>
    simp only [List.forall_mem_cons, List.forall_mem_append] at hw
    obtain ⟨hts, -, hts'⟩ := hw
    have hop : op.kind ≠ .identifier := fun hop => by
      rw [hop] at ho
      cases k <;> cases ho
    rw [Chain.renamed_operand] at ih'
    simp only [Form.renamed, ρ.tree_join, List.map_append, List.map_cons, ρ.token_of_ne hop]
    exact .joined (ih hts) ho (ih' hts')
  | chain _ hn ih => exact .chain (ih hw) hn
  | array ho _ ih =>
    rw [List.forall_mem_cons] at hw
    simp only [Form.renamed, ρ.tree_list, ρ.tree_array, List.map_cons] at ih ⊢
    exact .array (ρ.kind_token ho) (ih hw.2)
  | noElement h => exact .noElement (ρ.kind_token h)
  | @element ts sep ts' next t items _ hs h' ha ih ih' =>
    simp only [List.forall_mem_append] at hw
    obtain ⟨hts, -, hts'⟩ := hw
    -- no operator comes after the element that did not come after it before
    have hsep := hs.ne_identifier
    have hend := h'.leading_ne_identifier hN (Or.inl rfl) hsep ha
    simp only [Form.renamed, ρ.tree_list, List.map_cons, List.map_append] at ih ih' ⊢
    refine .element ?_ (hs.renamed ρ hend) (ih' hts')
    rw [← List.map_append, leading_renamed ρ hend]
    exact ih hts
  | noArgument h => exact .noArgument (ρ.kind_token h)
  | @argument ts sep ts' next t args _ hs h' ha ih ih' =>
    simp only [List.forall_mem_append] at hw
    obtain ⟨hts, -, hts'⟩ := hw
    have hsep : ∀ tok ∈ sep, tok.kind ≠ .identifier := by
      cases hs with
      | absent => simp
      | present h => simp [h]
    have hend := h'.leading_ne_identifier hN (Or.inr rfl) hsep ha
    simp only [Form.renamed, ρ.tree_list, List.map_cons, List.map_append] at ih ih' ⊢
    refine .argument ?_ (hs.renamed ρ (by simp)) (ih' hts')
    rw [← List.map_append, leading_renamed ρ hend]
    exact ih hts
  | noParameter h => exact .noParameter (ρ.kind_token h)
  | @parameter name sep ts next params h hs _ ih =>
    simp only [List.forall_mem_cons, List.forall_mem_append] at hw
    obtain ⟨hn, htext⟩ := ρ.name_renamed h hw.1
    have hparam := Arranged.parameter hn (hs.renamed ρ (by simp)) (ih hw.2.2)
    rw [htext] at hparam
    simpa [Form.renamed, Renaming.parameters, Renaming.name] using hparam
  | @box kw name stop next hk hn hs =>
    simp only [List.forall_mem_cons] at hw
    obtain ⟨hn', htext⟩ := ρ.name_renamed hn hw.2.1
    show Derives .statement _ _
      (.variableDeclaration (.text (ρ.text name.text)) .null (.bool false) (.bool false))
    rw [← htext]
    exact .box (ρ.kind_token hk) hn' (ρ.kind_token hs)
  | @boxSet kw name eq ts stop next t hk hn he _ hs ih =>
    simp only [List.forall_mem_cons, List.forall_mem_append] at hw
    obtain ⟨-, hname, -, hts, -⟩ := hw
    obtain ⟨hn', htext⟩ := ρ.name_renamed hn hname
    show Derives .statement _ _
      (.variableDeclaration (.text (ρ.text name.text)) (ρ.tree t) (.bool false) (.bool false))
    rw [← htext]
    simp only [List.map_cons, List.map_append, List.map_nil]
    exact .boxSet (ρ.kind_token hk) hn' (ρ.kind_token he) (ih hts)
      (ρ.kind_token hs)
  | @noChange kw name eq ts stop next t hk hn he _ hs ih =>
    simp only [List.forall_mem_cons, List.forall_mem_append] at hw
    obtain ⟨-, hname, -, hts, -⟩ := hw
    obtain ⟨hn', htext⟩ := ρ.name_renamed hn hname
    show Derives .statement _ _
      (.variableDeclaration (.text (ρ.text name.text)) (ρ.tree t) (.bool true) (.bool false))
    rw [← htext]
    simp only [List.map_cons, List.map_append, List.map_nil]
    exact .noChange (ρ.kind_token hk) hn' (ρ.kind_token he) (ih hts)
      (ρ.kind_token hs)
  | @boxes kw name eq ts stop next t hk hn he _ hs ih =>
    simp only [List.forall_mem_cons, List.forall_mem_append] at hw
    obtain ⟨-, hname, -, hts, -⟩ := hw
    obtain ⟨hn', htext⟩ := ρ.name_renamed hn hname
    show Derives .statement _ _
      (.variableDeclaration (.text (ρ.text name.text)) (ρ.tree t) (.bool false) (.bool true))
    rw [← htext]
    simp only [List.map_cons, List.map_append, List.map_nil]
    exact .boxes (ρ.kind_token hk) hn' (ρ.kind_token he) (ih hts)
      (ρ.kind_token hs)
  | @function kw name opening ps doIt ts stop next params items hk hn ho _ hd _ hs ih ih' =>
    simp only [List.forall_mem_cons, List.forall_mem_append] at hw
    obtain ⟨-, hname, -, hps, -, hts, -⟩ := hw
    obtain ⟨hn', htext⟩ := ρ.name_renamed hn hname
    show Derives .statement _ _ (.functionDeclaration (.text (ρ.text name.text))
      (.list (params.map ρ.name)) (ρ.tree (.block (.list items))))
    rw [← htext, ρ.tree_block]
    simp only [Form.renamed, ρ.tree_list, List.map_cons, List.map_append, List.map_nil] at ih' ⊢
    exact .function (ρ.kind_token hk) hn' (ρ.kind_token ho) (ih hps)
      (ρ.kind_token hd) (ih' hts) (ρ.kind_token hs)
  | @ifThen kw ts doIt ts' stop next test items hk _ hd _ hs ih ih' =>
    simp only [List.forall_mem_cons, List.forall_mem_append] at hw
    obtain ⟨-, hts, -, hts', -⟩ := hw
    have hkw := ρ.kind_keyword hk
    show Derives .statement _ _ (.ifStatement (ρ.tree (turned kw.kind .ifNotKw test))
      (ρ.tree (.block (.list items))) .null)
    rw [ρ.tree_turned, ρ.tree_block, ← hkw]
    simp only [Form.renamed, ρ.tree_list, List.map_cons, List.map_append, List.map_nil] at ih' ⊢
    exact .ifThen (hkw ▸ hk) (ih hts) (ρ.kind_token hd) (ih' hts')
      (ρ.kind_token hs)
  | @ifElse kw ts doIt ts' els opt ts'' stop next test items items' hk _ hd _ he ho _ hs
      ih ih' ih'' =>
    simp only [List.forall_mem_cons, List.forall_mem_append] at hw
    obtain ⟨-, hts, -, hts', -, -, hts'', -⟩ := hw
    have hkw := ρ.kind_keyword hk
    show Derives .statement _ _ (.ifStatement (ρ.tree (turned kw.kind .ifNotKw test))
      (ρ.tree (.block (.list items))) (ρ.tree (.block (.list items'))))
    rw [ρ.tree_turned, ρ.tree_block, ρ.tree_block, ← hkw]
    simp only [Form.renamed, ρ.tree_list, List.map_cons, List.map_append, List.map_nil]
      at ih' ih'' ⊢
    exact .ifElse (hkw ▸ hk) (ih hts) (ρ.kind_token hd) (ih' hts')
      (ρ.kind_token he) (ho.renamed ρ (by simp)) (ih'' hts'')
      (ρ.kind_token hs)
  | @whileDo kw ts doIt ts' stop next test items hk _ hd _ hs ih ih' =>
    simp only [List.forall_mem_cons, List.forall_mem_append] at hw
    obtain ⟨-, hts, -, hts', -⟩ := hw
    have hkw := ρ.kind_keyword hk
    show Derives .statement _ _ (.whileStatement (ρ.tree (turned kw.kind .whileNotKw test))
      (ρ.tree (.block (.list items))))
    rw [ρ.tree_turned, ρ.tree_block, ← hkw]
    simp only [Form.renamed, ρ.tree_list, List.map_cons, List.map_append, List.map_nil] at ih' ⊢
    exact .whileDo (hkw ▸ hk) (ih hts) (ρ.kind_token hd) (ih' hts')
      (ρ.kind_token hs)
  | @forTo kw name eq ts upTo ts' doIt ts'' stop next start last items hk hn he _ ht _ hd _ hs
      ih ih' ih'' =>
    simp only [List.forall_mem_cons, List.forall_mem_append] at hw
    obtain ⟨-, hname, -, hts, -, hts', -, hts'', -⟩ := hw
    obtain ⟨hn', htext⟩ := ρ.name_renamed hn hname
    show Derives .statement _ _ (.forStatement (.text (ρ.text name.text)) (ρ.tree start)
      (ρ.tree last) (ρ.tree (.block (.list items))))
    rw [← htext, ρ.tree_block]
    simp only [Form.renamed, ρ.tree_list, List.map_cons, List.map_append, List.map_nil] at ih'' ⊢
    exact .forTo (ρ.kind_token hk) hn' (ρ.kind_token he) (ih hts)
      (ρ.kind_token ht) (ih' hts') (ρ.kind_token hd)
      (ih'' hts'') (ρ.kind_token hs)
  | returnNull hk hs => exact .returnNull (ρ.kind_token hk) (ρ.kind_token hs)
  | returnValue hk _ hs ih =>
    simp only [List.forall_mem_cons, List.forall_mem_append] at hw
    obtain ⟨-, hts, -⟩ := hw
    simp only [List.map_cons, List.map_append, List.map_nil]
    exact .returnValue (ρ.kind_token hk) (ih hts) (ρ.kind_token hs)
  | assign _ ht he _ hs ih ih' =>
    simp only [List.forall_mem_cons, List.forall_mem_append] at hw
    obtain ⟨hts, -, hts', -⟩ := hw
    simp only [List.map_cons, List.map_append, List.map_nil]
    refine .assign (ih hts) ?_ (ρ.kind_token he) (ih' hts')
      (ρ.kind_token hs)
    rcases ht with ⟨x, rfl⟩ | ⟨a, i, rfl⟩
    · exact Or.inl ⟨_, rfl⟩
    · exact Or.inr ⟨_, _, rfl⟩
  | callOnly _ hn he ih => exact .callOnly (ih hw) hn he
  | empty => exact .empty
  | more _ _ ih ih' =>
    rw [List.forall_mem_append] at hw
    obtain ⟨hts, hts'⟩ := hw
    simp only [Form.renamed, ρ.tree_list, List.map_cons, List.map_append] at ih' ⊢
    -- the next statement may begin with a name, and the hypothesis is about the kind it had
    exact .more ((ih hts).before_renamed ρ) (ih' hts')
  | program _ ih =>
    have hbody := ih hw
    simp only [Form.renamed, ρ.tree_list] at hbody
    show Derives .program _ _ (.program (ρ.tree (.list _)))
    rw [ρ.tree_list]
    exact .program hbody

/-! ## Parsing -/

theorem beforeEnd_renamed (ρ : Renaming) (tokens : List Token) :
    beforeEnd (tokens.map ρ.token) = (beforeEnd tokens).map ρ.token := by
  have hkind : ∀ tok, (ρ.token tok).kind = .endOfInput ↔ tok.kind = .endOfInput := fun tok => by
    by_cases hk : tok.kind = .identifier
    · rw [ρ.token_of_identifier hk, hk]
      rcases ρ.kind_cases tok.text with h | ⟨h, -⟩
      · simp [h]
      · simp only [reduceCtorEq, iff_false]
        intro he
        rw [he] at h
        cases h
    · rw [ρ.token_of_ne hk]
  simp only [beforeEnd, List.takeWhile_map, Function.comp_def, ne_eq, hkind]

/-- A token list that is accepted ends with the end of input. -/
theorem last_of_parseTokens {depth : Nat} {tokens : List Token} {p : Tree}
    (h : parseTokens depth tokens = .ok p) :
    ∃ last, tokens.getLast? = some last ∧ last.kind = .endOfInput := by
  unfold parseTokens at h
  cases hc : Cursor.ofList? tokens with
  | none => simp [hc] at h
  | some c =>
    unfold Cursor.ofList? at hc
    split at hc
    · next first later last hlast =>
      by_cases hk : last.kind = .endOfInput
      · exact ⟨last, hlast, hk⟩
      · simp [hk] at hc
    · cases hc

/-- **Word operators serve as names.**  Let a token list be accepted in which no operator is spelled
    as a word, and in whose arrays and argument lists no element that begins with an identifier
    comes right after another one.  If its identifiers are replaced, each text by one identifier or
    by one word operator other than `subtract` and `equal`, then the result is accepted too, unless
    the limit on nesting is smaller than the number of tokens.  Its tree is the same, but for the
    names of variables, declarations, loops and parameters, which are replaced alike.  Two texts
    may even be replaced by the same one. -/
theorem parseTokens_renamed (ρ : Renaming) (hN : ¬N .identifier) {depth : Nat}
    {tokens : List Token} {p : Tree} (hp : parseTokens depth tokens = .ok p)
    (hw : ∀ tok ∈ beforeEnd tokens, tok.isWordOperator = false)
    (ha : ∃ q, Arranged N .program (beforeEnd tokens) .endOfInput q) (limit : Nat) :
    parseTokens limit (tokens.map ρ.token) = .ok (ρ.tree p) ∨
      parseTokens limit (tokens.map ρ.token) = .error .tooDeep ∧ limit < tokens.length := by
  obtain ⟨last, hl, hk⟩ := last_of_parseTokens hp
  obtain ⟨q, hq⟩ := ha
  -- the tree of the arrangement is the one that is parsed
  obtain rfl : q = p := by
    rcases parseTokens_beforeEnd hq.derives hl hk depth with hparse | ⟨hdeep, -⟩
    · exact Except.ok.inj (hparse.symm.trans hp)
    · rw [hp] at hdeep
      cases hdeep
  have hderives : Derives .program (beforeEnd (tokens.map ρ.token)) .endOfInput (ρ.tree q) := by
    rw [beforeEnd_renamed]
    exact hq.renamed ρ hN hw
  have hl' : (tokens.map ρ.token).getLast? = some (ρ.token last) := by
    rw [List.getLast?_map, hl]
    rfl
  refine (parseTokens_beforeEnd hderives hl' (ρ.kind_token hk) limit).imp_right fun ⟨h, hlt⟩ => ?_
  rw [beforeEnd_renamed, List.length_map] at hlt
  exact ⟨h, Nat.lt_of_lt_of_le hlt (List.takeWhile_prefix _).length_le⟩

/-- The identifiers `f`, `x` and `y` become words for operators. -/
def toWords : Renaming where
  text s := if s = "f" then "multiply" else if s = "x" then "add" else if s = "y" then "is" else s
  kind s := if s = "f" then .multiply else if s = "x" then .plus else
    if s = "y" then .equalsEquals else .identifier
  serves s := by
    split_ifs <;> simp [Kind.keywords, Kind.isOperator, Kind.isArithmetic, Kind.isComparison]

/-- The program `function f(x y) doIt end f([x ) -y], x) g(x)`, with a parenthesis that is skipped
    as a separator. -/
def bracketed : List Token :=
  [bare .functionKw "function", bare .identifier "f", bare .beginParams "(", bare .identifier "x",
    bare .identifier "y", bare .endParams ")", bare .doItKw "doIt", bare .endKw "end",
    bare .identifier "f", bare .beginParams "(", bare .openArray "[", bare .identifier "x",
    bare .endParams ")", bare .minus "-", bare .identifier "y", bare .closeArray "]",
    bare .comma ",", bare .identifier "x", bare .endParams ")", bare .identifier "g",
    bare .beginParams "(", bare .identifier "x", bare .endParams ")", bare .endOfInput ""]

/-- Its tree, for the three names in it that are replaced. -/
def bracketedTree (f x y : String) : Tree :=
  .program (.list [
    .functionDeclaration (.text f) (.list [.text x, .text y]) (.block (.list [])),
    .callExpression (.identifier (.text f)) (.list [
      .arrayLiteral (.list [.identifier (.text x),
        .unaryExpression (.text "-") (.identifier (.text y))]),
      .identifier (.text x)]),
    .callExpression (.identifier (.text "g")) (.list [.identifier (.text x)])])

theorem Arranged.of_primary (h : Arranged N .primary ts next t) (hs : next.Stops) :
    Arranged N (.chain .expression) ts next t :=
  .chain (.first h) (Chain.joins_eq_false hs _)

theorem bracketed_arranged :
    Arranged (fun _ => False) .program (beforeEnd bracketed) .endOfInput
      (bracketedTree "f" "x" "y") := by
  let N : Kind → Prop := fun _ => False
  have hparen : Kind.Stops .endParams := stops_of_mem (by simp)
  have hbracket : Kind.Stops .closeArray := stops_of_mem (by simp)
  have hcomma : Kind.Stops .comma := stops_of_mem (by simp)
  have hvar : ∀ (s : String) (next : Kind), next.Stops →
      Arranged N .primary [bare .identifier s] next (.identifier (.text s)) := fun s next hs =>
    .named (.name (Or.inl rfl)) hs.opens (by simp [bare_kind])
  have hx := (hvar "x" .endParams hparen).of_primary hparen
  -- the array `[x ) -y]`
  have hminus : Arranged N .primary [bare .minus "-", bare .identifier "y"] .closeArray _ :=
    .negative rfl (by decide) (hvar "y" .closeArray hbracket)
  have hnone : Arranged N .elements [bare .closeArray "]"] .comma (.list []) := .noElement rfl
  have hlast := @Arranged.element N _ [] _ .comma _ _ (hminus.of_primary hbracket)
    (.absent (Or.inl rfl)) hnone (by simp)
  have hitems := @Arranged.element N _ [bare .endParams ")"] _ .comma _ _ hx
    (.present ⟨by decide, by decide, rfl⟩) hlast (by simp)
  have harray : Arranged N .primary _ .comma _ :=
    .literal (@Arranged.array N (bare .openArray "[") _ _ _ rfl hitems)
  -- the argument lists `x)` and `[x ) -y], x)`
  have hclose : ∀ next, Arranged N .arguments [bare .endParams ")"] next (.list []) :=
    fun next => .noArgument rfl
  have hone := fun next => @Arranged.argument N _ [] _ next _ _ hx .absent (hclose next) (by simp)
  have htwo := @Arranged.argument N _ [bare .comma ","] _ .identifier _ _
    (harray.of_primary hcomma) (.present rfl) (hone .identifier) (by simp)
  -- the parameters `x y)`
  have hnoParam : Arranged N .parameters [bare .endParams ")"] .doItKw (.list []) :=
    .noParameter rfl
  have hparam := @Arranged.parameter N (bare .identifier "y") [] _ _ _ (Or.inl rfl) .absent hnoParam
  have hparams := @Arranged.parameter N (bare .identifier "x") [] _ _ _ (Or.inl rfl) .absent hparam
  -- the statements, from the last one on
  have hcall : ∀ (s : String) (ts : List Token) (next : Kind) (args : List Tree),
      ¬next.Opens → next ≠ .equals → Arranged N .arguments ts next (.list args) →
        Arranged N .statement (bare .identifier s :: bare .beginParams "(" :: ts) next
          (.callExpression (.identifier (.text s)) (.list args)) := fun s ts next args hn he h =>
    .callOnly (@Arranged.call N _ _ _ _ _ _ (.name (Or.inl rfl)) rfl h) hn he
  have hg := hcall "g" _ .endOfInput _ (by simp [Kind.Opens]) (by simp) (hone _)
  have hf := hcall "f" _ .identifier _ (by simp [Kind.Opens]) (by simp) htwo
  have hfunction := @Arranged.function N (bare .functionKw "function") (bare .identifier "f")
    (bare .beginParams "(") _ (bare .doItKw "doIt") _ (bare .endKw "end") .identifier _ _ rfl
    (Or.inl rfl) rfl hparams rfl .empty rfl
  have hlater := @Arranged.more N _ _ .endOfInput _ _ hf
    (@Arranged.more N _ [] .endOfInput _ _ hg .empty)
  exact .program (@Arranged.more N _ _ .endOfInput _ _ hfunction hlater)

/-- Words take the place of a function, of parameters that no comma sets apart, and of variables
    before and after brackets. -/
theorem parseTokens_renamed_words :
    parseTokens 30 bracketed = .ok (bracketedTree "f" "x" "y") ∧
      (∀ tok ∈ beforeEnd bracketed, tok.isWordOperator = false) ∧
      parseTokens 30 (bracketed.map toWords.token) =
        .ok (bracketedTree "multiply" "add" "is") := by
  have hp : parseTokens 30 bracketed = .ok (bracketedTree "f" "x" "y") := rfl
  have hw : ∀ tok ∈ beforeEnd bracketed, tok.isWordOperator = false := by decide
  refine ⟨hp, hw, ?_⟩
  rcases parseTokens_renamed toWords id hp hw ⟨_, bracketed_arranged⟩ 30 with h | ⟨-, h⟩
  · exact h
  · exact absurd h (by decide)

end Grammar

end BoxScript
