/-
  What may come after derived tokens.

  * `Kind.Stops`: the kinds by which no form goes on;
  * `Arranged.before`: tokens that are derived before one token are derived before any of these,
    and some forms, which end with a bracket, before every other token (`Form.Precedes`);
  * `parseTokens_derived`: derived tokens are parsed, whatever end of input comes after them.
-/
import BoxScript.Proofs.Grammar.Completeness

namespace BoxScript

/-- The kinds that neither go on with a name or a chain nor make an assignment of a call. -/
structure Kind.Stops (k : Kind) : Prop where
  opens : ¬k.Opens
  arithmetic : k.isArithmetic = false
  comparison : k.isComparison = false
  logical : k.isLogical = false
  equals : k ≠ .equals

namespace Grammar

variable {N : Kind → Prop} {form : Form} {ts : List Token} {next next' : Kind} {t : Tree}

theorem bare_kind (k : Kind) (text : String) : (bare k text).kind = k := rfl

/-- What ends a list, a condition, a body or a program stops. -/
theorem stops_of_mem {k : Kind}
    (h : k ∈ [.endKw, .elseKw, .doItKw, .toKw, .comma, .closeArray, .endParams, .endOfInput]) :
    k.Stops := by
  simp only [List.mem_cons, List.not_mem_nil, or_false] at h
  rcases h with rfl | rfl | rfl | rfl | rfl | rfl | rfl | rfl <;>
    exact ⟨by simp [Kind.Opens], rfl, rfl, rfl, by simp⟩

theorem Chain.joins_eq_false {k : Kind} (h : k.Stops) (chain : Chain) : chain.joins k = false := by
  cases chain with
  | expression => simp [joins, h.arithmetic, h.comparison]
  | comparison => exact h.comparison
  | condition | grouped => exact h.logical

/-! ## Another token after derived tokens -/

/-- The kinds that may come after a form, whatever its tokens are. -/
def Form.Precedes : Form → Kind → Prop
  | .named | .array | .elements | .arguments | .parameters => fun _ => True
  | .program => fun k => k = .endOfInput
  | _ => Kind.Stops

theorem Chain.operand_precedes (k : Chain) (h : next.Stops) : k.operand.Precedes next := by
  cases k <;> exact h

theorem leading_eq (h : ts ≠ []) (k k' : Kind) : leading ts k = leading ts k' := by
  cases ts with
  | nil => exact absurd rfl h
  | cons => rfl

theorem Arranged.ne_nil (h : Arranged N form ts next t) (hf : form.canBeEmpty = false) : ts ≠ [] :=
  List.length_pos_iff.1 (h.length_pos hf)

/-- What is derived before one token is derived before any other that may come after it. -/
theorem Arranged.before (h : Arranged N form ts next t) (hn : form.Precedes next') :
    Arranged N form ts next' t := by
  induction h with
  | @named name ts next t h hopen hm ih =>
    refine .named (ih trivial) (Kind.Stops.opens hn) fun hminus => ?_
    cases ts with
    | nil => exact absurd (Or.inr (hm hminus)) hopen
    | cons => exact hm hminus
  | number h hx => exact .number h hx
  | string h => exact .string h
  | boolean h => exact .boolean h
  | literal h ih => exact .literal (ih trivial)
  | group ho h hc => exact .group ho h hc
  | @negative sign ts next t hs hw h ih =>
    refine .negative hs (fun hword => ?_) (ih hn)
    rw [leading_eq (h.ne_nil rfl) next' next]
    exact hw hword
  | not hk h ih => exact .not hk (ih hn)
  | name h => exact .name h
  | index h ho h' hc => exact .index h ho h' hc
  | call h ho h' ih ih' => exact .call h ho (ih' trivial)
  | first h ih => exact .first (ih (Chain.operand_precedes _ hn))
  | joined h ho h' ih ih' => exact .joined h ho (ih' (Chain.operand_precedes _ hn))
  | chain h hj ih => exact .chain (ih hn) (Chain.joins_eq_false hn _)
  | array ho h ih => exact .array ho (ih trivial)
  | noElement h => exact .noElement h
  | @element ts sep ts' next t items h hs h' ha ih ih' =>
    have hne := h'.ne_nil rfl
    rw [leading_eq (by simp [hne]) next next'] at h
    rw [leading_eq hne next next'] at hs ha
    exact .element h hs (ih' trivial) ha
  | noArgument h => exact .noArgument h
  | @argument ts sep ts' next t args h hs h' ha ih ih' =>
    have hne := h'.ne_nil rfl
    rw [leading_eq (by simp [hne]) next next'] at h
    rw [leading_eq hne next next'] at ha
    exact .argument h hs (ih' trivial) ha
  | noParameter h => exact .noParameter h
  | parameter h hs h' ih => exact .parameter h hs (ih trivial)
  | box hk hname hs => exact .box hk hname hs
  | boxSet hk hname he h hs => exact .boxSet hk hname he h hs
  | noChange hk hname he h hs => exact .noChange hk hname he h hs
  | boxes hk hname he h hs => exact .boxes hk hname he h hs
  | function hk hname ho hp hd h hs => exact .function hk hname ho hp hd h hs
  | ifThen hk h hd h' hs => exact .ifThen hk h hd h' hs
  | ifElse hk h hd h' he ho h'' hs => exact .ifElse hk h hd h' he ho h'' hs
  | whileDo hk h hd h' hs => exact .whileDo hk h hd h' hs
  | forTo hk hname he h ht h' hd h'' hs => exact .forTo hk hname he h ht h' hd h'' hs
  | returnNull hk hs => exact .returnNull hk hs
  | returnValue hk h hs => exact .returnValue hk h hs
  | assign h ht he h' hs => exact .assign h ht he h' hs
  | callOnly h _ _ ih => exact .callOnly (ih trivial) (Kind.Stops.opens hn) (Kind.Stops.equals hn)
  | empty => exact .empty
  | @more ts ts' next t items h h' ih ih' =>
    refine .more ?_ (ih' hn)
    cases ts' with
    | nil => exact ih hn
    | cons => exact h
  | program h =>
    obtain rfl : next' = .endOfInput := hn
    exact .program h

/-! ## Parsing what is derived -/

theorem ne_endOfInput_of_joins {k : Chain} {kind : Kind} (h : k.joins kind = true) :
    kind ≠ .endOfInput := by
  rintro rfl
  cases k <;> cases h

theorem Optional.inside {k : Kind} (h : Optional k ts) (hk : k ≠ .endOfInput) :
    ∀ tok ∈ ts, tok.kind ≠ .endOfInput := by
  cases h with
  | absent => simp
  | present h => simpa [h] using hk

theorem Separator.inside {k : Kind} (h : Separator k ts) : ∀ tok ∈ ts, tok.kind ≠ .endOfInput := by
  cases h with
  | absent => simp
  | present h => simpa using h.2.1

/-- The end of input is not among derived tokens. -/
theorem Arranged.inside (h : Arranged N form ts next t) :
    ∀ tok ∈ ts, tok.kind ≠ .endOfInput := by
  induction h with
  | named _ _ _ ih | literal _ ih | first _ ih | chain _ _ ih | callOnly _ _ _ ih
  | program _ ih => exact ih
  | number h | string h | boolean h | noElement h | noArgument h | noParameter h => simp [h]
  | name h => simpa using h.ne_endOfInput
  | empty => simp
  | group ho _ hc ih => simpa [ho, hc, or_imp, forall_and] using ih
  | negative h _ _ ih | not h _ ih | array h _ ih => simpa [h] using ih
  | index _ ho _ hc ih ih' => simpa [ho, hc, or_imp, forall_and] using ⟨ih, ih'⟩
  | call _ ho _ ih ih' => simpa [ho, or_imp, forall_and] using ⟨ih, ih'⟩
  | joined _ ho _ ih ih' =>
    simpa [ne_endOfInput_of_joins ho, or_imp, forall_and] using ⟨ih, ih'⟩
  | element _ hs _ _ ih ih' => simpa [or_imp, forall_and] using ⟨ih, hs.inside, ih'⟩
  | argument _ hs _ _ ih ih' =>
    simpa [or_imp, forall_and] using ⟨ih, hs.inside (by simp), ih'⟩
  | parameter h hs _ ih =>
    simpa [h.ne_endOfInput, or_imp, forall_and] using ⟨hs.inside (by simp), ih⟩
  | box hk hn hs => simp [hk, hn.ne_endOfInput, hs]
  | boxSet hk hn he _ hs ih | noChange hk hn he _ hs ih | boxes hk hn he _ hs ih =>
    simpa [hk, hn.ne_endOfInput, he, hs, or_imp, forall_and] using ih
  | function hk hn ho _ hd _ hs ih ih' =>
    simpa [hk, hn.ne_endOfInput, ho, hd, hs, or_imp, forall_and] using ⟨ih, ih'⟩
  | ifThen hk _ hd _ hs ih ih' | whileDo hk _ hd _ hs ih ih' =>
    rcases hk with hk | hk <;> simpa [hk, hd, hs, or_imp, forall_and] using ⟨ih, ih'⟩
  | ifElse hk _ hd _ he ho _ hs ih ih' ih'' =>
    have hopt := ho.inside (by simp)
    rcases hk with hk | hk <;>
      simpa [hk, hd, he, hs, or_imp, forall_and] using ⟨ih, ih', hopt, ih''⟩
  | forTo hk hn he _ ht _ hd _ hs ih ih' ih'' =>
    simpa [hk, hn.ne_endOfInput, he, ht, hd, hs, or_imp, forall_and] using ⟨ih, ih', ih''⟩
  | returnNull hk hs => simp [hk, hs]
  | returnValue hk _ hs ih => simpa [hk, hs, or_imp, forall_and] using ih
  | assign _ _ he _ hs ih ih' => simpa [he, hs, or_imp, forall_and] using ⟨ih, ih'⟩
  | more _ _ ih ih' => simpa [or_imp, forall_and] using ⟨ih, ih'⟩

/-- A program is parsed from its tokens, unless the limit on nesting is smaller than their number.
    What comes after the first end of input does not matter. -/
theorem parseTokens_beforeEnd {tokens : List Token} {last : Token}
    (h : Derives .program (beforeEnd tokens) .endOfInput t) (hl : tokens.getLast? = some last)
    (hk : last.kind = .endOfInput) (depth : Nat) :
    parseTokens depth tokens = .ok t ∨
      parseTokens depth tokens = .error .tooDeep ∧ depth < (beforeEnd tokens).length := by
  obtain ⟨c, hc, rfl, hclosed⟩ := Cursor.ofList?_eq hl hk
  obtain ⟨c', hs, hend⟩ := spans_beforeEnd hclosed
  have hrun : Yields (depth < (beforeEnd c.tokens).length) (program depth) c t c' :=
    h.accepts depth c c' hs hend
  unfold parseTokens
  simp only [hc]
  unfold Yields at hrun
  cases hp : program depth c with
  | ok t' c' =>
    rw [ends_of_ok hp] at hrun
    simp [hrun.1]
  | error e c' =>
    rw [ends_of_error hp] at hrun
    simp [hrun.1, hrun.2]

/-- So it is with its tokens and an end of input. -/
theorem parseTokens_derived {last : Token} (h : Derives .program ts .endOfInput t)
    (hk : last.kind = .endOfInput) (depth : Nat) :
    parseTokens depth (ts ++ [last]) = .ok t ∨
      parseTokens depth (ts ++ [last]) = .error .tooDeep ∧ depth < ts.length := by
  have hend : beforeEnd (ts ++ [last]) = ts := by
    have hin : ∀ tok ∈ ts, decide (tok.kind ≠ .endOfInput) = true := fun tok htok =>
      decide_eq_true (h.inside tok htok)
    rw [beforeEnd, List.takeWhile_append_of_pos hin]
    simp [hk]
  have hparse := parseTokens_beforeEnd (hend.symm ▸ h) List.getLast?_concat hk depth
  rwa [hend] at hparse

end Grammar

end BoxScript
