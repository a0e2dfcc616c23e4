/-
  Programs that are joined by a line feed.

  The tokens of two texts that are joined by a line feed are those of the first and those of the
  second further down.  Every statement but a call is closed by `end`, so what comes after it does
  not matter.  A call is closed by the first token that does not go on with it, and of all tokens
  that begin a statement only one does: the word `equal`, which is a name at the beginning of a
  statement, but makes an assignment of what stands before it.

  * `Derives.moved`: the places of tokens do not matter to the grammar;
  * `Derives.body_append`: statements after statements;
  * `Derives.body_refuses`: a call before an `=` is refused there;
  * `parse_joined`: **the tree of a joined text** is that of the statements of both, or the word
    `equal` after a call is refused.
-/
import BoxScript.Proofs.Grammar.Texts
import BoxScript.Proofs.Token.Joining

namespace BoxScript

/-- The token further down. -/
def Token.moved (lines : Nat) (t : Token) : Token :=
  { t with line := t.line.map (· + (lines : Int)) }

theorem Lexeme.token_moved (chars lines : Nat) (l : Lexeme) :
    (l.moved chars lines).token = l.token.moved lines := by
  simp [Lexeme.token, Lexeme.moved, Token.moved, Position.moved]

namespace Grammar

variable {N : Kind → Prop} {form : Form} {ts ts' : List Token} {next next' : Kind} {t : Tree}

/-! ## Places -/

theorem leading_moved (lines : Nat) (ts : List Token) (next : Kind) :
    leading (ts.map (Token.moved lines)) next = leading ts next := by
  cases ts <;> rfl

theorem Optional.moved {k : Kind} (lines : Nat) (h : Optional k ts) :
    Optional k (ts.map (Token.moved lines)) := by
  cases h with
  | absent => exact .absent
  | present h => exact .present h

theorem Separator.moved {k : Kind} (lines : Nat) (h : Separator k ts) :
    Separator k (ts.map (Token.moved lines)) := by
  cases h with
  | absent h => exact .absent h
  | present h => exact .present h

/-- **Places do not matter**: what is derived from tokens is derived from them further down. -/
theorem Derives.moved (lines : Nat) (h : Derives form ts next t) :
    Derives form (ts.map (Token.moved lines)) next t := by
  induction h with
  | named _ hn hm ih => exact .named ih hn fun hk => (leading_moved ..).trans (hm hk)
  | number h hx => exact .number h hx
  | string h => exact .string h
  | boolean h => exact .boolean h
  | literal _ ih => exact .literal ih
  | group ho _ hc ih =>
    simp only [List.map_cons, List.map_append, List.map_nil]
    exact .group ho ih hc
  | negative hs hw _ ih =>
    exact .negative hs
      (fun hword => (leading_moved ..).trans_ne (hw hword)) ih
  | not hk _ ih => exact .not hk ih
  | name h => exact .name h
  | index _ ho _ hc ih ih' =>
    simp only [List.map_cons, List.map_append, List.map_nil]
    exact .index ih ho ih' hc
  | call _ ho _ ih ih' =>
    simp only [List.map_cons, List.map_append]
    exact .call ih ho ih'
  | first _ ih => exact .first ih
  | joined _ ho _ ih ih' =>
    simp only [List.map_cons, List.map_append]
    exact .joined ih ho ih'
  | chain _ hn ih => exact .chain ih hn
  | array ho _ ih => exact .array ho ih
  | noElement h => exact .noElement h
  | element _ hs _ _ ih ih' =>
    simp only [List.map_append]
    refine .element ?_ ?_ ih'
    · rwa [← List.map_append, leading_moved]
    · rw [leading_moved]
      exact hs.moved lines
  | noArgument h => exact .noArgument h
  | argument _ hs _ _ ih ih' =>
    simp only [List.map_append]
    refine .argument ?_ (hs.moved lines) ih'
    rwa [← List.map_append, leading_moved]
  | noParameter h => exact .noParameter h
  | parameter h hs _ ih =>
    simp only [List.map_cons, List.map_append]
    exact .parameter h (hs.moved lines) ih
  | box hk hn hs => exact .box hk hn hs
  | boxSet hk hn he _ hs ih =>
    simp only [List.map_cons, List.map_append, List.map_nil]
    exact .boxSet hk hn he ih hs
  | noChange hk hn he _ hs ih =>
    simp only [List.map_cons, List.map_append, List.map_nil]
    exact .noChange hk hn he ih hs
  | boxes hk hn he _ hs ih =>
    simp only [List.map_cons, List.map_append, List.map_nil]
    exact .boxes hk hn he ih hs
  | function hk hn ho _ hd _ hs ih ih' =>
    simp only [List.map_cons, List.map_append, List.map_nil]
    exact .function hk hn ho ih hd ih' hs
  | ifThen hk _ hd _ hs ih ih' =>
    simp only [List.map_cons, List.map_append, List.map_nil]
    exact .ifThen hk ih hd ih' hs
  | ifElse hk _ hd _ he ho _ hs ih ih' ih'' =>
    simp only [List.map_cons, List.map_append, List.map_nil]
    exact .ifElse hk ih hd ih' he (ho.moved lines) ih'' hs
  | whileDo hk _ hd _ hs ih ih' =>
    simp only [List.map_cons, List.map_append, List.map_nil]
    exact .whileDo hk ih hd ih' hs
  | forTo hk hn he _ ht _ hd _ hs ih ih' ih'' =>
    simp only [List.map_cons, List.map_append, List.map_nil]
    exact .forTo hk hn he ih ht ih' hd ih'' hs
  | returnNull hk hs => exact .returnNull hk hs
  | returnValue hk _ hs ih =>
    simp only [List.map_cons, List.map_append, List.map_nil]
    exact .returnValue hk ih hs
  | assign _ ht he _ hs ih ih' =>
    simp only [List.map_cons, List.map_append, List.map_nil]
    exact .assign ih ht he ih' hs
  | callOnly _ hn he ih => exact .callOnly ih hn he
  | empty => exact .empty
  | more _ _ ih ih' =>
    simp only [List.map_append]
    refine .more ?_ ih'
    rwa [leading_moved]
  | program _ ih => exact .program ih

/-! ## Statements after statements -/

theorem not_opens_of_startsStatement {k : Kind} (h : startsStatement k = true) : ¬k.Opens := by
  rintro (rfl | rfl) <;> cases h

/-- Is the last of the statements a call, which is not closed by `end`? -/
def endsWithCall (items : List Tree) : Bool := items.getLast?.any isCall

theorem endsWithCall_cons {item : Tree} {items : List Tree} (h : items ≠ []) :
    endsWithCall (item :: items) = endsWithCall items := by
  obtain ⟨first, later, rfl⟩ := List.exists_cons_of_ne_nil h
  rw [endsWithCall, List.getLast?_cons_cons]
  rfl

/-- Only of a call does it matter what comes after it. -/
theorem Arranged.statement_before (h : Arranged N .statement ts next t) (ho : ¬next'.Opens)
    (hcall : isCall t = true → next' ≠ .equals) : Arranged N .statement ts next' t := by
  cases h with
  | box hk hname hs => exact .box hk hname hs
  | boxSet hk hname he h hs => exact .boxSet hk hname he h hs
  | noChange hk hname he h hs => exact .noChange hk hname he h hs
  | boxes hk hname he h hs => exact .boxes hk hname he h hs
  | function hk hname ho hp hd h hs => exact .function hk hname ho hp hd h hs
  | ifThen hk h hd h' hs => exact .ifThen hk h hd h' hs
  | ifElse hk h hd h' he ho h'' hs => exact .ifElse hk h hd h' he ho h'' hs
  | whileDo hk h hd h' hs => exact .whileDo hk h hd h' hs
  | forTo hk hname he h ht h' hd h'' hs => exact .forTo hk hname he h ht h' hd h'' hs
  | returnNull hk hs => exact .returnNull hk hs
  | returnValue hk h hs => exact .returnValue hk h hs
  | assign h ht he h' hs => exact .assign h ht he h' hs
  | callOnly h => exact .callOnly (h.before trivial) ho (hcall rfl)

/-- A call is a name with its suffixes, whatever comes after it. -/
theorem Arranged.call_named (h : Arranged N .statement ts next t) (hc : isCall t = true) :
    Arranged N .named ts next' t := by
  cases h with
  | callOnly h => exact h.before trivial
  | _ => cases hc

/-- No statements are made up of no tokens. -/
theorem Arranged.body_nil_iff {items : List Tree} (h : Arranged N .body ts next (.list items)) :
    ts = [] ↔ items = [] := by
  cases h with
  | empty => simp
  | more h => simp [h.ne_nil rfl]

/-- **Statements after statements.**  Their tokens make up both, unless they come after a call and
    begin with what makes an assignment of it. -/
theorem Derives.body_append {xs ys : List Tree} (h : Derives .body ts next (.list xs))
    (h' : Derives .body ts' next' (.list ys)) (ho : ¬(leading ts' next').Opens)
    (he : endsWithCall xs = true → leading ts' next' ≠ .equals) :
    Derives .body (ts ++ ts') next' (.list (xs ++ ys)) := by
  induction xs generalizing ts with
  | nil =>
    obtain rfl := h.body_nil_iff.2 rfl
    exact h'
  | cons x xs ih =>
    cases h with
    | @more ts₁ ts₂ _ _ _ hx hxs =>
      rw [List.append_assoc]
      by_cases hempty : xs = []
      · obtain rfl := hxs.body_nil_iff.2 hempty
        obtain rfl := hempty
        exact .more (hx.statement_before ho he) h'
      · have hne : ts₂ ≠ [] := fun h => hempty (hxs.body_nil_iff.1 h)
        rw [endsWithCall_cons hempty] at he
        refine .more ?_ (ih hxs he)
        obtain ⟨tok, rest, rfl⟩ := List.exists_cons_of_ne_nil hne
        exact hx

/-- What statements begin with, or the end of input after them, does not go on with a name. -/
theorem Derives.leading_not_opens {items : List Tree}
    (h : Derives .body ts .endOfInput (.list items)) : ¬(leading ts .endOfInput).Opens := by
  cases h with
  | empty => exact (stops_of_mem (k := .endOfInput) (by simp)).opens
  | more h _ =>
    obtain ⟨tok, rest, rfl, hb⟩ := h.begins rfl
    exact not_opens_of_startsStatement hb

/-- A statement that begins with an assignment sign begins with a name. -/
theorem Arranged.equals_isName {tok : Token} (h : Arranged N .statement (tok :: ts) next t)
    (hk : tok.kind = .equals) : tok.IsName := by
  generalize hts : tok :: ts = ts' at h
  cases h with
  | box hkw | boxSet hkw | noChange hkw | boxes hkw | function hkw | forTo hkw | returnNull hkw
  | returnValue hkw =>
    rw [← (List.cons.inj hts).1, hk] at hkw
    cases hkw
  | ifThen hkw | ifElse hkw | whileDo hkw =>
    rw [← (List.cons.inj hts).1, hk] at hkw
    rcases hkw with hkw | hkw <;> cases hkw
  | assign h | callOnly h =>
    obtain ⟨name, rest, rfl, hname⟩ := h.begins rfl
    rwa [(List.cons.inj hts).1]

/-! ## An assignment to a call -/

section Refuses

open Parse

variable {α β : Type} {c c' c₁ : Cursor} {short : Prop} {e : Obstacle}

/-- From `c`, the parser stops with the error `e`, or since the limit on nesting is too small,
    which happens only if `short` holds. -/
def Refuses (short : Prop) (x : Parse α) (c : Cursor) (e : Obstacle) : Prop :=
  Ends x c (fun _ _ => False) fun e' _ => e' = e ∨ e' = .tooDeep ∧ short

theorem Refuses.bind {x : Parse α} {f : α → Parse β} (hx : Refuses short x c e) :
    Refuses short (x >>= f) c e := by
  unfold Refuses
  rw [ends_bind]
  exact Ends.imp hx (fun _ _ h => h.elim) fun _ _ h => h

theorem Refuses.imp {x : Parse α} {short' : Prop} (hx : Refuses short x c e)
    (h : short → short') : Refuses short' x c e :=
  Ends.imp hx (fun _ _ h => h) fun _ _ he => he.imp_right fun ⟨he, hs⟩ => ⟨he, h hs⟩

/-- A parser that stops comes after one that gives a value. -/
theorem refuses_after {x : Parse α} {f : α → Parse β} {a : α} (hx : Yields short x c a c₁)
    (hf : Refuses short (f a) c₁ e) : Refuses short (x >>= f) c e := by
  unfold Refuses
  rw [ends_bind]
  refine Ends.imp hx ?_ fun _ _ h => Or.inr h
  rintro _ _ ⟨rfl, rfl⟩
  exact hf

/-- What stands before an `=` must not be a call. -/
theorem call_refuses {depth : Nat} (h : Derives .named ts .equals t) (hcall : isCall t = true)
    (hs : c.Spans ts c') (hn : c'.current.kind = .equals) :
    Refuses (depth < ts.length) (statement depth) c
      (.unexpected .assignmentToCall c'.current) := by
  cases depth with
  | zero => exact Or.inr ⟨rfl, h.length_pos rfl⟩
  | succ depth =>
    have hname : c.current.IsName := by
      obtain ⟨tok, rest, rfl, hb⟩ := h.begins rfl
      rw [hs.cons.1]
      exact hb
    have htarget : isTarget t = false := by
      obtain ⟨f, args, rfl⟩ := call_of_isCall hcall
      rfl
    have hopen : ¬Kind.equals.Opens := by simp [Kind.Opens]
    refine ends_nameStatement hname (refuses_after (x := advance) ⟨rfl, rfl⟩ ?_)
    refine refuses_after (accepted_named h.accepts hs hn hopen) ?_
    show Refuses _ (if c'.current.kind = .equals then _ else _ : Parse Tree) c' _
    rw [if_pos hn, htarget]
    exact Or.inl rfl

/-- **A call before an `=` is refused there**, also if other statements come before it. -/
theorem Derives.body_refuses {xs : List Tree} {depth rounds : Nat} {closes : Kind → Bool}
    (h : Derives .body ts next (.list xs)) (hcall : endsWithCall xs = true)
    (hs : c.Spans ts c') (hn : c'.current.kind = .equals)
    (hstart : ∀ k, startsStatement k = true → closes k = false)
    (hr : c.later.length < rounds) :
    Refuses (depth < ts.length) (statements (statement depth) closes rounds) c
      (.unexpected .assignmentToCall c'.current) := by
  induction xs generalizing ts c rounds with
  | nil => cases hcall
  | cons x xs ih =>
    cases h with
    | @more ts₁ ts₂ _ _ _ hx hxs =>
      obtain ⟨c₁, hs₁, hs₂⟩ := hs.split
      obtain ⟨tok, rest, rfl, hb⟩ := hx.begins rfl
      have hlen := hs₁.length
      simp only [List.length_cons, List.length_append] at hlen ⊢
      cases rounds with
      | zero => omega
      | succ rounds =>
        have hkind : startsStatement c.current.kind = true := by rw [hs₁.cons.1]; exact hb
        have hend : c.current.kind ≠ .endOfInput := by
          intro he
          rw [he] at hkind
          cases hkind
        unfold statements
        refine refuses_after (x := kind) ⟨rfl, rfl⟩ ?_
        rw [hstart _ hkind, if_neg (by simp), if_neg hend]
        by_cases hempty : xs = []
        · obtain rfl := hxs.body_nil_iff.2 hempty
          obtain rfl := hempty
          obtain rfl := Cursor.eq_of_spans_nil hs₂
          refine Refuses.bind ((call_refuses (hx.call_named hcall) hcall hs₁ hn).imp fun hd => ?_)
          simpa using hd
        · have hne : ts₂ ≠ [] := fun h => hempty (hxs.body_nil_iff.1 h)
          have hlead : leading ts₂ next = c₁.current.kind :=
            (leading_eq hne next _).trans hs₂.leading
          have hfirst : Yields (depth < rest.length + 1) (statement depth) c x c₁ :=
            Derives.accepts hx depth c c₁ hs₁ hlead.symm
          refine refuses_after (hfirst.imp fun hd => by omega) ?_
          rw [endsWithCall_cons hempty] at hcall
          exact ((ih hxs hcall hs₂ (by omega)).imp fun hd => by omega).bind

/-- A token list that begins with a call and an `=`, or with other statements before these. -/
theorem parseTokens_refuses {xs : List Tree} {tok : Token} {more : List Token} {last : Token}
    (h : Derives .body ts next (.list xs)) (hcall : endsWithCall xs = true)
    (htok : tok.kind = .equals) (hl : (ts ++ tok :: more).getLast? = some last)
    (hk : last.kind = .endOfInput) (depth : Nat) :
    parseTokens depth (ts ++ tok :: more) = .error (.unexpected .assignmentToCall tok) ∨
      parseTokens depth (ts ++ tok :: more) = .error .tooDeep ∧ depth < ts.length := by
  obtain ⟨c, hc, htokens, -⟩ := Cursor.ofList?_eq hl hk
  have hs : c.Spans ts ⟨tok, more⟩ := ⟨htokens, h.inside⟩
  have hstart : ∀ k, startsStatement k = true → decide (k = .endOfInput) = false := by
    intro k hk
    refine decide_eq_false ?_
    rintro rfl
    cases hk
  have hrun : Refuses (depth < ts.length) (program depth) c
      (.unexpected .assignmentToCall tok) := by
    unfold program
    refine refuses_after (x := remaining) ⟨rfl, rfl⟩ ?_
    exact (h.body_refuses hcall hs htok hstart (Nat.lt_succ_self _)).bind
  unfold parseTokens
  simp only [hc]
  unfold Refuses at hrun
  cases hp : program depth c with
  | ok t' c' =>
    rw [ends_of_ok hp] at hrun
    exact hrun.elim
  | error e c' =>
    rw [ends_of_error hp] at hrun
    simpa using hrun

end Refuses

/-- The tokens of two programs, one after the other. -/
theorem parseTokens_append {xs ys : List Tree} {first last : Token} {later : List Token}
    (h : Derives .body ts .endOfInput (.list xs)) (h' : Derives .body ts' .endOfInput (.list ys))
    (hk : last.kind = .endOfInput) (hts : ts' ++ [last] = first :: later) (depth : Nat) :
    parseTokens depth (ts ++ first :: later) =
        (if endsWithCall xs = true ∧ first.kind = .equals then
          .error (.unexpected .assignmentToCall first)
        else .ok (.program (.list (xs ++ ys)))) ∨
      parseTokens depth (ts ++ first :: later) = .error .tooDeep ∧
        depth < ts.length + later.length := by
  have hlast : (ts ++ first :: later).getLast? = some last := by
    rw [← hts, ← List.append_assoc, List.getLast?_concat]
  have hlength : ts'.length = later.length := by simpa using congrArg List.length hts
  split
  · next hbad =>
    obtain ⟨hcall, hequals⟩ := hbad
    refine (parseTokens_refuses h hcall hequals hlast hk depth).imp_right fun ⟨hdeep, hd⟩ => ?_
    exact ⟨hdeep, by omega⟩
  · next hgood =>
    have hlead : leading ts' .endOfInput = first.kind := by
      cases ts' with
      | nil =>
        obtain rfl : last = first := (List.cons.inj hts).1
        exact hk.symm
      | cons tok rest =>
        obtain rfl : tok = first := (List.cons.inj hts).1
        rfl
    have hboth := h.body_append h' h'.leading_not_opens fun hcall => by
      rw [hlead]
      exact fun hequals => hgood ⟨hcall, hequals⟩
    have hparse := parseTokens_derived (.program hboth) hk depth
    rw [List.append_assoc, hts, List.length_append, hlength] at hparse
    exact hparse

end Grammar

/-! ## Texts -/

/-- The two spellings of the assignment sign. -/
theorem LongestMatch.equals_cases {rest content cs : List Char}
    (h : LongestMatch rest .equals content cs) : content = ['='] ∨ content = "equal".toList := by
  have hpair : ∀ p ∈ Kind.pairOperators, p.2 ≠ .equals := by decide
  have hsingle : ∀ p ∈ Kind.singleOperators, p.2 = .equals → p.1 = '=' := by decide
  have hword : ∀ p ∈ Kind.keywords, p.2 = .equals → p.1 = "equal" := by decide
  generalize hk : Kind.equals = k at h
  cases h with
  | string | number => cases hk
  | pair h => exact absurd hk.symm (hpair _ (Kind.mem_of_lookup h))
  | @single c _ h =>
    exact Or.inl (congrArg (fun c => [c]) (hsingle _ (Kind.mem_of_lookup h) hk.symm))
  | @word c cs =>
    unfold Kind.ofWord at hk
    cases hl : Kind.keywords.lookup (String.ofList (c :: cs)) with
    | none =>
      rw [hl] at hk
      cases hk
    | some k =>
      rw [hl] at hk
      have htext := hword _ (Kind.mem_of_lookup hl) hk.symm
      exact Or.inr (by rw [← htext, String.toList_ofList])

open Grammar

/-- A text that can be scanned is parsed like its tokens. -/
theorem parse_of_scan {source : String} {lexemes : List Lexeme} (h : scan source = .ok lexemes)
    (depth : Nat) : parse depth source =
      (parseTokens depth (lexemes.map Lexeme.token)).mapError .grammatical := by
  simp only [parse, h]
  cases parseTokens depth (lexemes.map Lexeme.token) <;> rfl

/-- An assignment sign at the beginning of a program is the word `equal`: the other spelling is no
    name. -/
theorem equal_of_leading {cs : List Char} {p : Position} {first : Lexeme} {later : List Lexeme}
    {items : List Tree} (hd : Divided [] p cs (first :: later)) (hk : first.kind = .equals)
    (h : Derives .body ((first :: later).map Lexeme.token) .endOfInput (.list items)) :
    first.text = "equal" := by
  have hname : first.token.IsName := by
    generalize hts : (first :: later).map Lexeme.token = ts at h
    cases h with
    | empty => cases hts
    | more h _ =>
      obtain ⟨tok, rest, rfl, -⟩ := h.begins rfl
      obtain rfl := (List.cons.inj hts).1
      exact h.equals_isName hk
  have hword : Text.isWord first.text = true := by
    rcases hname with hid | hword
    · exact absurd (hid.symm.trans hk) (by decide)
    · exact (Bool.and_eq_true _ _ ▸ hword).2
  cases hd with
  | token _ hm _ =>
    obtain rfl : _ = Kind.equals := hk
    rcases hm.equals_cases with htext | htext
    · simp only [Text.isWord, htext] at hword
      cases hword
    · exact String.toList_inj.1 htext

/-- **The tree of a joined text.**  If two texts are parsed, then unless the limit on nesting is
    hit, which happens only if it is smaller than the number of tokens, the text that joins them by
    a line feed has the statements of the first and then those of the second.  There is one
    exception: if the first ends with a call and the second begins with the word `equal`, this
    word is refused. -/
theorem parse_joined {s t : String} {n m : Nat} {p q : Tree} (hs : parse n s = .ok p)
    (ht : parse m t = .ok q) :
    ∃ xs ys tokens first later, p = .program (.list xs) ∧ q = .program (.list ys) ∧
      scan t = .ok (first :: later) ∧
      scan (s ++ "\n" ++ t) = .ok (tokens ++ (first :: later).map
        (Lexeme.moved (s.length + 1) (s.toList.count '\n' + 1))) ∧
      ∀ depth,
        (parse depth (s ++ "\n" ++ t) = .error (.grammatical .tooDeep) →
          depth < tokens.length + later.length) ∧
        (parse depth (s ++ "\n" ++ t) ≠ .error (.grammatical .tooDeep) →
          parse depth (s ++ "\n" ++ t) =
            if endsWithCall xs = true ∧ first.kind = .equals ∧ first.text = "equal" then
              .error (.grammatical (.unexpected .assignmentToCall
                (first.moved (s.length + 1) (s.toList.count '\n' + 1)).token))
            else .ok (.program (.list (xs ++ ys)))) := by
  obtain ⟨tokens, xs, hds, rfl, hxs⟩ := derives_of_parse hs
  obtain ⟨tokens', ys, hdt, rfl, hys⟩ := derives_of_parse ht
  obtain ⟨first, later, hlexemes⟩ := List.exists_cons_of_ne_nil
    (List.append_ne_nil_of_right_ne_nil tokens'
      (List.cons_ne_nil (Lexeme.endAt (Position.start.after t.toList)) []))
  have hscan : scan t = .ok (first :: later) := scan_eq_ok_iff.2 ⟨tokens', hdt, hlexemes.symm⟩
  have hjoined := hds.scan_eq t
  rw [hscan] at hjoined
  refine ⟨xs, ys, tokens, first, later, rfl, rfl, hscan, hjoined, fun depth => ?_⟩
  have hequal : first.kind = .equals → first.text = "equal" := by
    intro hk
    cases tokens' with
    | nil =>
      rw [← (List.cons.inj hlexemes).1] at hk
      cases hk
    | cons l tokens' =>
      obtain rfl := (List.cons.inj hlexemes).1
      exact equal_of_leading hdt hk hys
  -- the tokens of the second text, further down, and the end of input after them
  set move := Lexeme.moved (s.length + 1) (s.toList.count '\n' + 1)
  have hmoved : (tokens'.map move).map Lexeme.token =
      (tokens'.map Lexeme.token).map (Token.moved (s.toList.count '\n' + 1)) := by
    rw [List.map_map, List.map_map]
    exact List.map_congr_left fun l _ => Lexeme.token_moved ..
  have hlater := hys.moved (s.toList.count '\n' + 1)
  rw [← hmoved] at hlater
  have hend : (move (.endAt (Position.start.after t.toList))).token.kind = .endOfInput := rfl
  have hall : (tokens'.map move).map Lexeme.token ++
      [(move (.endAt (Position.start.after t.toList))).token] =
        (move first).token :: (later.map move).map Lexeme.token := by
    simpa using congrArg (fun l => (l.map move).map Lexeme.token) hlexemes
  have hparse : parse depth (s ++ "\n" ++ t) = (parseTokens depth (tokens.map Lexeme.token ++
      (move first).token :: (later.map move).map Lexeme.token)).mapError .grammatical := by
    rw [parse_of_scan hjoined, List.map_append]
    rfl
  have hcond : (endsWithCall xs = true ∧ first.kind = .equals ∧ first.text = "equal") ↔
      endsWithCall xs = true ∧ (move first).token.kind = .equals :=
    and_congr_right fun _ => and_iff_left_of_imp hequal
  rw [hparse]
  rcases parseTokens_append hxs hlater hend hall depth with hrun | ⟨hrun, hdeep⟩
  · rw [hrun]
    constructor
    · intro hdeep
      split at hdeep <;> cases hdeep
    · intro _
      simp only [hcond]
      split <;> rfl
  · rw [hrun]
    refine ⟨fun _ => by simpa using hdeep, fun h => absurd rfl h⟩

/-- The tree of `f()`. -/
def plainCall : Tree := .callExpression (.identifier (.text "f")) (.list [])

/-- The tree of `equal = x end`. -/
def equalAssigned : Tree :=
  .assignmentExpression (.identifier (.text "equal")) (.identifier (.text "x"))

/-- The tree of `add(x)`. -/
def addCalled : Tree :=
  .callExpression (.identifier (.text "add")) (.list [.identifier (.text "x")])

/-- After a call the variable `equal` cannot be assigned, but a function `add` can be called. -/
theorem parse_joined_call :
    parse 9 "f()" = .ok (.program (.list [plainCall])) ∧
      parse 9 "equal = x end" = .ok (.program (.list [equalAssigned])) ∧
      parse 9 "add(x)" = .ok (.program (.list [addCalled])) ∧
      parse 9 ("f()" ++ "\n" ++ "equal = x end") = .error (.grammatical
        (.unexpected .assignmentToCall ⟨.equals, "equal", some 2, some 1⟩)) ∧
      parse 9 ("f()" ++ "\n" ++ "add(x)") = .ok (.program (.list [plainCall, addCalled])) := by
  have hscanf : scan "f()" = .ok
      [⟨.identifier, "f", ⟨0, 1, 1⟩, some ⟨1, 1, 2⟩⟩,
       ⟨.beginParams, "(", ⟨1, 1, 2⟩, some ⟨2, 1, 3⟩⟩,
       ⟨.endParams, ")", ⟨2, 1, 3⟩, some ⟨3, 1, 4⟩⟩, .endAt ⟨3, 1, 4⟩] := by decide +kernel
  have hscan : scan "equal = x end" = .ok
      [⟨.equals, "equal", ⟨0, 1, 1⟩, some ⟨5, 1, 6⟩⟩, ⟨.equals, "=", ⟨6, 1, 7⟩, some ⟨7, 1, 8⟩⟩,
       ⟨.identifier, "x", ⟨8, 1, 9⟩, some ⟨9, 1, 10⟩⟩,
       ⟨.endKw, "end", ⟨10, 1, 11⟩, some ⟨13, 1, 14⟩⟩, .endAt ⟨13, 1, 14⟩] := by decide +kernel
  have hscan' : scan "add(x)" = .ok
      [⟨.plus, "add", ⟨0, 1, 1⟩, some ⟨3, 1, 4⟩⟩, ⟨.beginParams, "(", ⟨3, 1, 4⟩, some ⟨4, 1, 5⟩⟩,
       ⟨.identifier, "x", ⟨4, 1, 5⟩, some ⟨5, 1, 6⟩⟩, ⟨.endParams, ")", ⟨5, 1, 6⟩, some ⟨6, 1, 7⟩⟩,
       .endAt ⟨6, 1, 7⟩] := by decide +kernel
  have hf : parse 9 "f()" = .ok (.program (.list [plainCall])) := by
    rw [parse_of_scan hscanf]
    rfl
  have hequal : parse 9 "equal = x end" = .ok (.program (.list [equalAssigned])) := by
    rw [parse_of_scan hscan]
    rfl
  have hadd : parse 9 "add(x)" = .ok (.program (.list [addCalled])) := by
    rw [parse_of_scan hscan']
    rfl
  have hlength : (scan ("f()" ++ "\n" ++ "equal = x end")).toOption.map List.length = some 8 := by
    decide +kernel
  have hlength' : (scan ("f()" ++ "\n" ++ "add(x)")).toOption.map List.length = some 8 := by
    decide +kernel
  refine ⟨hf, hequal, hadd, ?_, ?_⟩
  · obtain ⟨xs, ys, tokens, first, later, hxs, -, hfirst, hall, hjoined⟩ := parse_joined hf hequal
    obtain ⟨rfl, rfl⟩ := List.cons.inj (Except.ok.inj (hscan.symm.trans hfirst))
    cases hxs
    rw [hall] at hlength
    have hcount := (List.length_append ..).symm.trans (Option.some.inj hlength)
    have hdeep : parse 9 _ ≠ _ := fun hdeep => by
      have hsmall := (hjoined 9).1 hdeep
      simp only [List.length_map, List.length_cons, List.length_nil] at hcount hsmall
      omega
    rw [(hjoined 9).2 hdeep]
    rfl
  · obtain ⟨xs, ys, tokens, first, later, hxs, hys, hfirst, hall, hjoined⟩ := parse_joined hf hadd
    obtain ⟨rfl, rfl⟩ := List.cons.inj (Except.ok.inj (hscan'.symm.trans hfirst))
    cases hxs
    cases hys
    rw [hall] at hlength'
    have hcount := (List.length_append ..).symm.trans (Option.some.inj hlength')
    have hdeep : parse 9 _ ≠ _ := fun hdeep => by
      have hsmall := (hjoined 9).1 hdeep
      simp only [List.length_map, List.length_cons, List.length_nil] at hcount hsmall
      omega
    rw [(hjoined 9).2 hdeep]
    rfl

end BoxScript
