/-
  What may stand between the elements of an array.

  Any token that neither ends the array, nor begins an element, nor goes on with an expression does
  the work of a comma: it is passed over, and nothing else is.

  * `Kind.SetsApart`: the kinds of these tokens;
  * `Freestanding ts t`: the tokens make up the expression before every token that does not go on
    with it.  What is read as an expression before a comma is freestanding
    (`ReadBeforeComma.freestanding`), since an expression depends on the next token in no other way;
  * `Nested ts t us u`: in `us`, the tokens `ts` stand in brackets of arrays, calls and parentheses;
  * `separators_interchangeable`: **an array is read alike whatever sets its elements apart.**
-/
import BoxScript.Proofs.Grammar.Context

namespace BoxScript

/-- The kinds that set two elements of an array apart, whatever the elements are. -/
structure Kind.SetsApart (k : Kind) : Prop where
  separates : k.Separates
  arithmetic : k.isArithmetic = false
  comparison : k.isComparison = false

theorem Yields.ok_or_tooDeep {short : Prop} {x : Parse Tree} {c c' : Cursor} {t : Tree}
    (h : Yields short x c t c') :
    x c = .ok t c' ∨ short ∧ ∃ c'', x c = .error .tooDeep c'' := by
  unfold Yields at h
  cases hrun : x c with
  | ok t' c'' =>
    obtain ⟨rfl, rfl⟩ := (ends_of_ok hrun).1 h
    exact Or.inl rfl
  | error e c'' =>
    obtain ⟨rfl, hs⟩ := (ends_of_error hrun).1 h
    exact Or.inr ⟨hs, c'', rfl⟩

namespace Grammar

variable {ts us : List Token} {next next' : Kind} {t u : Tree}

theorem not_opens_of_separates {k : Kind} (h : k.Separates) : ¬k.Opens := by
  rintro (rfl | rfl) <;> cases h.2.2

theorem joins_of_setsApart {k : Kind} (h : k.SetsApart) : Chain.joins .expression k = false := by
  simp [Chain.joins, h.arithmetic, h.comparison]

theorem comma_setsApart : Kind.comma.SetsApart := ⟨⟨by simp, by simp, rfl⟩, rfl, rfl⟩

/-! ## Expressions and what comes after them -/

/-- A primary goes on with an opening bracket only. -/
theorem Derives.primary_before (h : Derives .primary ts next t) (hn : ¬next'.Opens) :
    Derives .primary ts next' t := by
  generalize hf : Form.primary = form at h
  induction h with
  | @named name ts next t h hopen hm =>
    refine .named (h.before trivial) hn fun hminus => ?_
    cases ts with
    | nil => exact absurd (Or.inr (hm hminus)) hopen
    | cons => exact hm hminus
  | number h hx => exact .number h hx
  | string h => exact .string h
  | boolean h => exact .boolean h
  | literal h => exact .literal (h.before trivial)
  | group ho h hc => exact .group ho h hc
  | @negative sign ts next t hs hw h ih =>
    refine .negative hs (fun hword => ?_) (ih rfl)
    rw [leading_eq (h.ne_nil rfl) next' next]
    exact hw hword
  | not hk _ ih => exact .not hk (ih rfl)
  | _ => cases hf

/-- An expression goes on with an opening bracket or an operator only. -/
theorem Derives.expression_before (h : Derives (.chain .expression) ts next t) (hn : ¬next'.Opens)
    (hj : Chain.joins .expression next' = false) : Derives (.chain .expression) ts next' t := by
  cases h with
  | chain h =>
    refine .chain ?_ hj
    cases h with
    | first h => exact .first (Derives.primary_before h hn)
    | joined h ho h' => exact .joined h ho (Derives.primary_before h' hn)

/-- The tokens make up the expression wherever nothing goes on with it. -/
def Freestanding (ts : List Token) (t : Tree) : Prop :=
  ∀ next : Kind, ¬next.Opens → Chain.joins .expression next = false →
    Derives (.chain .expression) ts next t

/-- The parser of expressions, at some place of a list, makes the tree of exactly these tokens, and
    the next one is a comma. -/
def ReadBeforeComma (ts : List Token) (t : Tree) : Prop :=
  ∃ depth c c', c.Closed ∧ c.tokens = ts ++ c'.tokens ∧ c'.current.kind = .comma ∧
    expression (primary depth) c = .ok t c'

theorem ReadBeforeComma.freestanding (h : ReadBeforeComma ts t) : Freestanding ts t := by
  obtain ⟨depth, c, c', hc, htokens, hcomma, hrun⟩ := h
  have hreads : Reads (expression (primary depth)) c (Derives (.chain .expression)) :=
    expression_parses (primary_parses depth) c hc
  unfold Reads at hreads
  rw [ends_of_ok hrun] at hreads
  obtain ⟨used, hs, hderives⟩ := hreads
  obtain rfl : used = ts := List.append_cancel_right (hs.eq.symm.trans htokens)
  exact fun next hn hj => hderives.expression_before hn hj

/-! ## Lists of expressions -/

/-- Lists of tokens with separators after them, as far as there are any. -/
def interleaved : List (List Token) → List Token → List Token
  | [], _ => []
  | ts :: rest, [] => ts ++ interleaved rest []
  | ts :: rest, sep :: seps => ts ++ sep :: interleaved rest seps

/-- There is a separator between any two of the lists; the last one may have one too. -/
def Between (lists seps : Nat) : Prop := seps = lists ∨ seps + 1 = lists

variable {items : List (List Token × Tree)} {seps : List Token} {closing : Token}

/-- Freestanding expressions make up a list of a form by which any two of them are set apart. -/
theorem list_of_freestanding {form : Form} {Sep : Kind → Prop} (hsep : ∀ k, Sep k → k.SetsApart)
    (hstop : closing.kind.Stops) (hnil : Derives form [closing] next (.list []))
    (hcons : ∀ {ts sep ts' : List Token} {t : Tree} {trees : List Tree},
      Derives (.chain .expression) ts (leading (sep ++ ts') next) t →
      (sep = [] ∧ ts' = [closing] ∨ ∃ s, sep = [s] ∧ Sep s.kind) →
      Derives form ts' next (.list trees) →
        Derives form (ts ++ (sep ++ ts')) next (.list (t :: trees)))
    (hitems : ∀ item ∈ items, Freestanding item.1 item.2) (hseps : ∀ s ∈ seps, Sep s.kind)
    (hcount : Between items.length seps.length) :
    Derives form (interleaved (items.map Prod.fst) seps ++ [closing]) next
      (.list (items.map Prod.snd)) := by
  induction items generalizing seps with
  | nil => exact hnil
  | cons item items ih =>
    have hitem := hitems item (by simp)
    have hrest : ∀ i ∈ items, Freestanding i.1 i.2 := fun i hi => hitems i (by simp [hi])
    cases seps with
    | nil =>
      -- only the last one has no separator after it
      obtain rfl : items = [] := by
        rcases hcount with h | h <;> simp_all
      have h : Derives (.chain .expression) item.1 (leading ([] ++ [closing]) next) item.2 :=
        hitem _ hstop.opens (Chain.joins_eq_false hstop _)
      simpa [interleaved] using hcons h (Or.inl ⟨rfl, rfl⟩) hnil
    | cons sep seps =>
      have hs := hseps sep (by simp)
      have hcount' : Between items.length seps.length := by
        simp only [Between, List.length_cons] at hcount ⊢
        omega
      have h : Derives (.chain .expression) item.1
          (leading ([sep] ++ (interleaved (items.map Prod.fst) seps ++ [closing])) next) item.2 :=
        hitem _ (not_opens_of_separates (hsep _ hs).separates) (joins_of_setsApart (hsep _ hs))
      have hlist := hcons h (Or.inr ⟨sep, rfl, hs⟩)
        (ih hrest (fun s hs => hseps s (by simp [hs])) hcount')
      simpa [interleaved] using hlist

/-- The elements of an array and its closing bracket. -/
theorem elements_of_freestanding (hc : closing.kind = .closeArray)
    (hitems : ∀ item ∈ items, Freestanding item.1 item.2) (hseps : ∀ s ∈ seps, s.kind.SetsApart)
    (hcount : Between items.length seps.length) (next : Kind) :
    Derives .elements (interleaved (items.map Prod.fst) seps ++ [closing]) next
      (.list (items.map Prod.snd)) := by
  refine list_of_freestanding (fun _ h => h) (hc ▸ stops_of_mem (by simp)) (.noElement hc)
    (fun h hs h' => .element h ?_ h') hitems hseps hcount
  rcases hs with ⟨rfl, rfl⟩ | ⟨s, rfl, hs⟩
  · exact .absent (Or.inl hc)
  · exact .present hs.separates

/-- The arguments of a call and the closing parenthesis. -/
theorem arguments_of_freestanding (hc : closing.kind = .endParams)
    (hitems : ∀ item ∈ items, Freestanding item.1 item.2) (hseps : ∀ s ∈ seps, s.kind = .comma)
    (hcount : Between items.length seps.length) (next : Kind) :
    Derives .arguments (interleaved (items.map Prod.fst) seps ++ [closing]) next
      (.list (items.map Prod.snd)) := by
  have hcomma : ∀ k : Kind, k = .comma → k.SetsApart := fun _ h => h ▸ comma_setsApart
  refine list_of_freestanding hcomma (hc ▸ stops_of_mem (by simp)) (.noArgument hc)
    (fun h hs h' => .argument h ?_ h') hitems hseps hcount
  rcases hs with ⟨rfl, rfl⟩ | ⟨s, rfl, hs⟩
  · exact .absent
  · exact .present hs

/-! ## Arrays at any place -/

/-- The tokens `us` make up `u`, where the tokens `ts` of `t` stand inside any number of arrays,
    calls and parentheses, among other elements and arguments. -/
inductive Nested (ts : List Token) (t : Tree) : List Token → Tree → Prop
  | here : Nested ts t ts t
  | element {opening closing us u before after seps} (h : Nested ts t us u)
      (ho : opening.kind = .openArray) (hc : closing.kind = .closeArray)
      (hbefore : ∀ item ∈ before, ReadBeforeComma item.1 item.2)
      (hafter : ∀ item ∈ after, ReadBeforeComma item.1 item.2)
      (hseps : ∀ s ∈ seps, s.kind.SetsApart)
      (hcount : Between (before ++ (us, u) :: after).length seps.length) :
      Nested ts t
        (opening :: (interleaved ((before ++ (us, u) :: after).map Prod.fst) seps ++ [closing]))
        (.arrayLiteral (.list ((before ++ (us, u) :: after).map Prod.snd)))
  | argument {name callee opening closing us u f before after seps} (h : Nested ts t us u)
      (hf : Derives .named (name :: callee) .beginParams f)
      (hm : name.kind = .minus → leading callee .beginParams = .beginParams)
      (ho : opening.kind = .beginParams) (hc : closing.kind = .endParams)
      (hbefore : ∀ item ∈ before, ReadBeforeComma item.1 item.2)
      (hafter : ∀ item ∈ after, ReadBeforeComma item.1 item.2)
      (hseps : ∀ s ∈ seps, s.kind = .comma)
      (hcount : Between (before ++ (us, u) :: after).length seps.length) :
      Nested ts t
        (name :: callee ++ opening ::
          (interleaved ((before ++ (us, u) :: after).map Prod.fst) seps ++ [closing]))
        (.callExpression f (.list ((before ++ (us, u) :: after).map Prod.snd)))
  | group {opening closing us u} (h : Nested ts t us u) (ho : opening.kind = .beginParams)
      (hc : closing.kind = .endParams) : Nested ts t (opening :: (us ++ [closing])) u

/-- A primary is freestanding. -/
theorem freestanding_of_primary (h : ∀ next : Kind, ¬next.Opens → Derives .primary ts next t) :
    Freestanding ts t :=
  fun next hn hj => .chain (.first (h next hn)) hj

theorem freestanding_among {before after : List (List Token × Tree)}
    (hbefore : ∀ item ∈ before, ReadBeforeComma item.1 item.2) (h : Freestanding us u)
    (hafter : ∀ item ∈ after, ReadBeforeComma item.1 item.2) :
    ∀ item ∈ before ++ (us, u) :: after, Freestanding item.1 item.2 := by
  intro item hitem
  rcases List.mem_append.1 hitem with hmem | hmem
  · exact (hbefore item hmem).freestanding
  · rcases List.mem_cons.1 hmem with rfl | hmem
    · exact h
    · exact (hafter item hmem).freestanding

/-- What an array stands in is an expression. -/
theorem Nested.freestanding (h : Nested ts t us u) (harray : ∀ next, Derives .array ts next t) :
    Freestanding us u := by
  induction h with
  | here => exact freestanding_of_primary fun next _ => .literal (harray next)
  | element _ ho hc hbefore hafter hseps hcount ih =>
    refine freestanding_of_primary fun next _ => .literal (.array ho ?_)
    exact elements_of_freestanding hc (freestanding_among hbefore ih hafter) hseps hcount next
  | @argument name callee _ _ _ _ _ _ _ _ _ hf hm ho hc hbefore hafter hseps hcount ih =>
    refine freestanding_of_primary fun next hopen => ?_
    have hargs := arguments_of_freestanding hc (freestanding_among hbefore ih hafter) hseps hcount
      next
    refine .named (.call hf ho hargs) hopen fun hminus => ?_
    cases callee with
    | nil => exact ho
    | cons => exact hm hminus
  | group _ ho hc ih =>
    have hinner := ih .endParams (by simp [Kind.Opens]) rfl
    exact freestanding_of_primary fun next _ => .group ho (.chain (.first hinner) rfl) hc

/-- **An array is read alike whatever sets its elements apart.**  The elements are any tokens that
    are read as expressions before a comma.  Between two of them, and perhaps after the last one,
    stands one token that neither ends the array, nor begins an element, nor is an operator of
    calculation or comparison.  At whatever place the array stands and whatever comes after it, the
    parser of arrays takes exactly its tokens, and the elements are those of the expressions; and so
    the expression is read that has the array inside arrays, calls and parentheses.  In both cases
    the limit on nesting is not hit if it is as high as the number of tokens. -/
theorem separators_interchangeable {opening : Token} (ho : opening.kind = .openArray)
    (hc : closing.kind = .closeArray)
    (hitems : ∀ item ∈ items, ReadBeforeComma item.1 item.2)
    (hseps : ∀ s ∈ seps, s.kind.SetsApart) (hcount : Between items.length seps.length) :
    let array := opening :: (interleaved (items.map Prod.fst) seps ++ [closing])
    let tree := Tree.arrayLiteral (.list (items.map Prod.snd))
    (∀ depth (c c' : Cursor), c.tokens = array ++ c'.tokens →
      arrayLiteral (primary depth) c = .ok tree c' ∨
        depth < array.length ∧ ∃ c'', arrayLiteral (primary depth) c = .error .tooDeep c'') ∧
    ∀ us u, Nested array tree us u → ∀ depth (c c' : Cursor), c.tokens = us ++ c'.tokens →
      ¬c'.current.kind.Opens → Chain.joins .expression c'.current.kind = false →
      expression (primary depth) c = .ok u c' ∨
        depth < us.length ∧ ∃ c'', expression (primary depth) c = .error .tooDeep c'' := by
  intro array tree
  have harray : ∀ next, Derives .array array next tree := fun next =>
    .array ho (elements_of_freestanding hc (fun item hi => (hitems item hi).freestanding) hseps
      hcount next)
  refine ⟨fun depth c c' htokens => ?_, fun us u hnested depth c c' htokens hopen hjoins => ?_⟩
  · have hs : c.Spans array c' := ⟨htokens, (harray c'.current.kind).inside⟩
    have hyields : Yields (depth + 1 < array.length) (arrayLiteral (primary depth)) c tree c' :=
      (harray _).accepts depth c c' hs rfl
    exact (hyields.imp fun h => by omega).ok_or_tooDeep
  · have hderives := hnested.freestanding harray c'.current.kind hopen hjoins
    have hyields : Yields (depth < us.length) (expression (primary depth)) c u c' :=
      hderives.accepts depth c c' ⟨htokens, hderives.inside⟩ rfl
    exact hyields.ok_or_tooDeep

/-- The elements of the sample: `add`, `f("x")` and `not b`. -/
def strayItems : List (List Token × Tree) :=
  [([bare .plus "add"], .identifier (.text "add")),
   ([bare .identifier "f", bare .beginParams "(", bare .string "x", bare .endParams ")"],
    .callExpression (.identifier (.text "f")) (.list [.stringLiteral (.text "x")])),
   ([bare .notKw "not", bare .identifier "b"],
    .logicalExpression (.text "not") (.identifier (.text "b")) .null)]

/-- What sets them apart: `end`, `and` and a parenthesis that closes nothing. -/
def straySeps : List Token := [bare .endKw "end", bare .andKw "and", bare .endParams ")"]

/-- The array `[add end f("x") and not b )]`. -/
def strayArray : List Token :=
  bare .openArray "[" :: (interleaved (strayItems.map Prod.fst) straySeps ++ [bare .closeArray "]"])

/-- The array before another bracket, and in parentheses as an argument of a call. -/
theorem separators_interchangeable_stray :
    let tree := Tree.arrayLiteral (.list (strayItems.map Prod.snd))
    let call :=
      [bare .identifier "g", bare .beginParams "(", bare .beginParams "("] ++ strayArray ++
      [bare .endParams ")", bare .comma ",", bare .boolean "true", bare .endParams ")"]
    let rest : Cursor := ⟨bare .openArray "[", [bare .endOfInput ""]⟩
    let stop : Cursor := ⟨bare .endKw "end", [bare .endOfInput ""]⟩
    (∀ item ∈ strayItems, ReadBeforeComma item.1 item.2) ∧
      (∀ s ∈ straySeps, s.kind.SetsApart) ∧
      arrayLiteral (primary 20) ⟨bare .openArray "[", strayArray.tail ++ rest.tokens⟩ =
        .ok tree rest ∧
      expression (primary 20) ⟨bare .identifier "g", call.tail ++ stop.tokens⟩ =
        .ok (.callExpression (.identifier (.text "g"))
          (.list [tree, .booleanLiteral (.bool true)])) stop := by
  intro tree call rest stop
  have hread : ∀ {tok : Token} {ts : List Token} {t : Tree},
      expression (primary 9) ⟨tok, ts ++ [bare .comma ",", bare .endOfInput ""]⟩ =
        .ok t ⟨bare .comma ",", [bare .endOfInput ""]⟩ → ReadBeforeComma (tok :: ts) t :=
    fun h => ⟨9, _, _, ⟨bare .endOfInput "", by simp [Cursor.tokens, List.getLast?_cons], rfl⟩, rfl,
      rfl, h⟩
  have hitems : ∀ item ∈ strayItems, ReadBeforeComma item.1 item.2 := by
    simp only [strayItems, List.forall_mem_cons]
    exact ⟨hread rfl, hread rfl, hread rfl, by simp⟩
  have hseps : ∀ s ∈ straySeps, s.kind.SetsApart := by
    simp only [straySeps, List.forall_mem_cons]
    refine ⟨?_, ?_, ?_, by simp⟩ <;> exact ⟨⟨by simp [bare], by simp [bare], rfl⟩, rfl, rfl⟩
  have hboolean : ReadBeforeComma [bare .boolean "true"] (.booleanLiteral (.bool true)) := hread rfl
  have hname : Derives .named [bare .identifier "g"] .beginParams (.identifier (.text "g")) :=
    .name (Or.inl rfl)
  obtain ⟨hplace, hnest⟩ := separators_interchangeable (bare_kind .openArray "[")
    (bare_kind .closeArray "]") hitems hseps (Or.inl rfl)
  have hcall : Nested strayArray tree call (.callExpression (.identifier (.text "g"))
      (.list [tree, .booleanLiteral (.bool true)])) :=
    @Nested.argument _ _ _ _ (bare .beginParams "(") (bare .endParams ")") _ _ _ []
      [([bare .boolean "true"], .booleanLiteral (.bool true))] [bare .comma ","]
      (.group .here (bare_kind .beginParams "(") (bare_kind .endParams ")")) hname
      (fun h => by cases h) rfl rfl (by simp) (by simpa using hboolean) (by simp [bare])
      (Or.inr rfl)
  refine ⟨hitems, hseps, (hplace 20 _ rest rfl).resolve_right fun h => ?_,
    (hnest call _ hcall 20 _ stop rfl (by simp [stop, bare, Kind.Opens]) rfl).resolve_right
      fun h => ?_⟩
  · exact absurd h.1 (by decide)
  · exact absurd h.1 (by decide)

end Grammar

end BoxScript
