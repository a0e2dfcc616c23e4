/-
  Scanning finds whatever is there.

  A text may be divided into layout and longest matches in one way only, the one that the scanner
  finds.  The division is stated before a rest, so that the scanner can be followed up to any
  place between two tokens.

  * `Divided rest p cs tokens`: from the place `p` on, the text `cs`, which stands before `rest`,
    is divided into the tokens and the layout between them;
  * `scanStep_longestMatch`: a step takes off the longest match that begins in its place;
  * `Divided.scanFrom_eq`: **the scanner follows a division** and goes on behind it;
  * `scan_eq_ok_iff`: the lexemes of a text are the tokens of its division and the end of input.
-/
import BoxScript.Proofs.Token.Tokenization

namespace BoxScript

/-! ## Divisions -/

/-- From the place `p` on, the text, which stands before `rest`, is layout, a token, layout, a token
    and so on. -/
inductive Divided (rest : List Char) : Position → List Char → List Lexeme → Prop
  | done {p cs} (h : Layout rest cs) : Divided rest p cs []
  | token {p gap cs more k text tokens} (hg : Layout (cs ++ (more ++ rest)) gap)
      (hm : LongestMatch (more ++ rest) k text.toList cs)
      (h : Divided rest (p.after (gap ++ cs)) more tokens) :
      Divided rest p (gap ++ (cs ++ more))
        (⟨k, text, p.after gap, some (p.after (gap ++ cs))⟩ :: tokens)

/-- Layout may come before the first layout. -/
theorem Divided.layout {rest gap cs : List Char} {p : Position} {tokens : List Lexeme}
    (hg : Layout (cs ++ rest) gap) (h : Divided rest (p.after gap) cs tokens) :
    Divided rest p (gap ++ cs) tokens := by
  cases h with
  | done h => exact .done (hg.append h)
  | token hg' hm h =>
    rw [← Position.after_append, ← List.append_assoc] at h
    rw [List.append_assoc, List.append_assoc] at hg
    have htoken := Divided.token (hg.append hg') hm h
    simpa only [List.append_assoc, Position.after_append] using htoken

/-- The end of input at the place `p`. -/
def Lexeme.endAt (p : Position) : Lexeme := ⟨.endOfInput, "", p, none⟩

theorem Tokenized.divided {p : Position} {cs : List Char} {lexemes : List Lexeme}
    (h : Tokenized p cs lexemes) :
    ∃ tokens, lexemes = tokens ++ [.endAt (p.after cs)] ∧ Divided [] p cs tokens := by
  induction h with
  | done h => exact ⟨[], rfl, .done h⟩
  | @token p gap cs rest k text lexemes hg hm _ ih =>
    obtain ⟨tokens, rfl, hd⟩ := ih
    rw [← List.append_nil rest] at hg hm
    refine ⟨_ :: tokens, ?_, .token hg hm hd⟩
    rw [List.cons_append, ← List.append_assoc, Position.after_append p (gap ++ cs)]

/-! ## Characters -/

namespace Scan

variable {c d : Char}

/-- The codes of letters. -/
theorem toNat_of_isAlpha (h : c.isAlpha = true) :
    (65 ≤ c.toNat ∧ c.toNat ≤ 90) ∨ (97 ≤ c.toNat ∧ c.toNat ≤ 122) := by
  have hcases : (decide (c.val ≥ 'A'.val ∧ c.val ≤ 'Z'.val) ||
      (decide (c.val ≥ 'a'.val) && decide (c.val ≤ 'z'.val))) = true := h
  simp only [Bool.or_eq_true, Bool.and_eq_true, decide_eq_true_eq] at hcases
  exact hcases

theorem le_of_isAlphanum (h : c.isAlphanum = true) : 48 ≤ c.toNat ∧ c.toNat ≤ 122 := by
  rw [Char.isAlphanum, Bool.or_eq_true] at h
  rcases h with h | h
  · have := toNat_of_isAlpha h
    omega
  · have := Number.toNat_of_isDigit h
    omega

theorem le_of_isBlank (h : Text.isBlank c = true) : c.toNat ≤ 32 ∨ 133 ≤ c.toNat := by
  simp only [Text.isBlank, Text.blanks, CodeRanges.contains, Bool.if_false_left, Bool.and_eq_true,
    Bool.or_eq_true, Bool.not_eq_true', decide_eq_true_eq, decide_eq_false_iff_not] at h
  omega

theorem isDigit_of_isAlpha (h : c.isAlpha = true) : c.isDigit = false := by
  by_contra hd
  have hle := (Number.toNat_of_isDigit (by simpa using hd)).2
  have := toNat_of_isAlpha h
  omega

theorem isAlphanum_of_isBlank (h : Text.isBlank c = true) : c.isAlphanum = false := by
  by_contra hc
  have hle := le_of_isAlphanum (by simpa using hc)
  have := le_of_isBlank h
  omega

/-- A character that begins a number, a word or a blank begins nothing else. -/
theorem begins_other (h : c.isAlphanum = true ∨ c = '.' ∨ Text.isBlank c = true) :
    Kind.ofChar? c = none ∧ c ≠ '#' ∧ c ≠ '"' := by
  have htable : ∀ p ∈ Kind.singleOperators,
      ¬(p.1.isAlphanum = true ∨ p.1 = '.' ∨ Text.isBlank p.1 = true) := by decide
  refine ⟨?_, ?_, ?_⟩
  · cases hk : Kind.ofChar? c with
    | none => rfl
    | some k => exact absurd h (htable _ (Kind.mem_of_lookup hk))
  · rintro rfl
    exact absurd h (by decide)
  · rintro rfl
    exact absurd h (by decide)

/-- An operator of two characters begins with one that is an operator too. -/
theorem ofPair?_eq_none (h : Kind.ofChar? c = none) (d : Char) : Kind.ofPair? c d = none := by
  have htable : ∀ p ∈ Kind.pairOperators, Kind.ofChar? p.1.1 ≠ none := by decide
  cases hk : Kind.ofPair? c d with
  | none => rfl
  | some k => exact absurd h (htable _ (Kind.mem_of_lookup hk))

/-! ## One step -/

variable {p : Position} {cs rest : List Char}

theorem scanStep_eq_simplePiece (hl : c ≠ '#') (hq : c ≠ '"') (hs : c = '/' → cs.head? ≠ some '*')
    (hp : ∀ d, cs.head? = some d → Kind.ofPair? c d = none) :
    scanStep p c cs = simplePiece p c cs := by
  unfold scanStep
  split
  · exact absurd rfl hl
  · exact absurd rfl (hs rfl)
  · exact absurd rfl hq
  · next d more _ _ _ =>
    rw [hp d rfl]
  · rfl

/-- Where no operator begins, the character alone decides. -/
theorem scanStep_eq_of_other (h : Kind.ofChar? c = none ∧ c ≠ '#' ∧ c ≠ '"') :
    scanStep p c cs =
      if c.isDigit || c == '.' then numberPiece p (c :: cs)
      else if c.isAlpha then .ok (wordPiece (c :: cs))
      else if Text.isBlank c then .ok (layout [c] cs)
      else .error ⟨.unexpectedCharacter c, p⟩ := by
  have hslash : c ≠ '/' := by
    rintro rfl
    exact absurd h.1 (by decide)
  rw [scanStep_eq_simplePiece h.2.1 h.2.2 (absurd · hslash) fun d _ => ofPair?_eq_none h.1 d]
  unfold simplePiece
  rw [h.1]

theorem scanStep_blank (h : Text.isBlank c = true) :
    scanStep p c cs = .ok (layout [c] cs) := by
  have hother := begins_other (Or.inr (Or.inr h))
  have halnum := isAlphanum_of_isBlank h
  simp only [Char.isAlphanum, Bool.or_eq_false_iff] at halnum
  have hpoint : (c == '.') = false := beq_false_of_ne fun hc => by
    subst hc
    exact absurd h (by decide)
  simp [scanStep_eq_of_other hother, halnum, hpoint, h]

theorem scanStep_line (hb : ∀ d ∈ cs, d ≠ '\n') (hn : ∀ d, rest.head? = some d → d = '\n') :
    scanStep p '#' (cs ++ rest) = .ok (layout ('#' :: cs) rest) := by
  have hspan : (cs ++ rest).takeWhile (· != '\n') = cs ∧
      (cs ++ rest).dropWhile (· != '\n') = rest :=
    span_eq (by simpa using hb) (by simpa using hn)
  unfold scanStep
  simp only [hspan]

theorem closeComment?_eq_some (hb : ¬['*', '/'] <:+: cs) :
    closeComment? (cs ++ '*' :: '/' :: rest) = some (cs ++ ['*', '/'], rest) := by
  induction cs with
  | nil => rfl
  | cons c cs ih =>
    have htail := ih fun h => hb (h.trans (List.suffix_cons c cs).isInfix)
    rw [List.cons_append, closeComment?, htail]
    · rfl
    · -- the comment would be closed before
      rintro more rfl hmore
      cases cs with
      | nil => cases hmore
      | cons d cs =>
        obtain ⟨rfl, -⟩ := List.cons.inj hmore
        exact hb ⟨[], cs, rfl⟩

theorem scanStep_block (hb : ¬['*', '/'] <:+: cs) :
    scanStep p '/' ('*' :: (cs ++ '*' :: '/' :: rest)) =
      .ok (layout ('/' :: '*' :: (cs ++ ['*', '/'])) rest) := by
  unfold scanStep
  simp only [closeComment?_eq_some hb]

theorem stringTail_eq_ok {start : Position} {body content : List Char}
    (h : StringBody body content) :
    stringTail start p (body ++ '"' :: rest) = .ok ⟨content, body ++ ['"'], rest⟩ := by
  induction h generalizing p with
  | nil => rfl
  | plain hq hb _ ih =>
    rw [List.cons_append, stringTail, ih]
    · rfl
    · exact hq
    · exact fun _ _ h => absurd h hb
  | escape he _ ih =>
    rw [List.cons_append, List.cons_append, stringTail]
    simp only [he, ih]
    rfl

theorem fractionPiece_eq_ok {digits fraction : List Char} (hne : digits ≠ [] ∨ fraction ≠ [])
    (hn : rest.head? ≠ some '.') :
    fractionPiece p digits fraction rest =
      .ok (plain .number (digits ++ '.' :: fraction) rest) := by
  unfold fractionPiece
  split
  · exact absurd rfl hn
  · rw [if_neg]
    simp only [Bool.and_eq_true, List.isEmpty_iff, not_and_or]
    exact hne

theorem numberPiece_eq_ok (h : Number.IsNumeral cs)
    (hn : ∀ d, rest.head? = some d → d.isDigit = false ∧ d ≠ '.') :
    numberPiece p (cs ++ rest) = .ok (plain .number cs rest) := by
  have hdigit : ∀ d, rest.head? = some d → d.isDigit = false := fun d hd => (hn d hd).1
  have hpoint : rest.head? ≠ some '.' := fun hd => (hn _ hd).2 rfl
  unfold numberPiece
  cases h with
  | whole hd _ =>
    obtain ⟨htake, hdrop⟩ := span_eq hd hdigit
    rw [htake, hdrop]
    unfold digitsPiece
    split
    · exact absurd rfl hpoint
    · rfl
  | @point ds fs hd hf hne =>
    have hstop : ∀ d, ('.' :: (fs ++ rest)).head? = some d → d.isDigit = false := by simp
    obtain ⟨htake, hdrop⟩ := span_eq hd hstop
    obtain ⟨htake', hdrop'⟩ := span_eq hf hdigit
    rw [List.append_assoc, List.cons_append, htake, hdrop]
    simp only [digitsPiece, htake', hdrop', fractionPiece_eq_ok hne hpoint]

theorem wordPiece_eq (hs : ∀ d ∈ cs, d.isAlphanum = true)
    (hn : ∀ d, rest.head? = some d → d.isAlphanum = false) :
    wordPiece (cs ++ rest) = plain (Kind.ofWord (String.ofList cs)) cs rest := by
  obtain ⟨htake, hdrop⟩ := span_eq hs hn
  simp only [wordPiece, htake, hdrop]

theorem scanStep_string {body content : List Char} (h : StringBody body content) :
    scanStep p '"' (body ++ '"' :: rest) =
      .ok ⟨some (.string, String.ofList content), '"' :: (body ++ ['"']), rest⟩ := by
  show stringPiece p _ = _
  rw [stringPiece, stringTail_eq_ok h]

theorem scanStep_pair {k : Kind} (h : Kind.ofPair? c d = some k) :
    scanStep p c (d :: rest) = .ok (plain k [c, d] rest) := by
  have htable : ∀ p ∈ Kind.pairOperators, p.1.1 ≠ '#' ∧ p.1.1 ≠ '/' ∧ p.1.1 ≠ '"' := by decide
  obtain ⟨hl, hs, hq⟩ := htable _ (Kind.mem_of_lookup h)
  rw [scanStep]
  · rw [h]
  · exact hl
  · exact fun hc => absurd hc hs
  · exact hq

theorem scanStep_single {k : Kind} (h : Kind.ofChar? c = some k)
    (hp : ∀ d, rest.head? = some d → Kind.ofPair? c d = none)
    (hs : c = '/' → rest.head? ≠ some '*') :
    scanStep p c rest = .ok (plain k [c] rest) := by
  have htable : ∀ p ∈ Kind.singleOperators, p.1 ≠ '#' ∧ p.1 ≠ '"' := by decide
  obtain ⟨hl, hq⟩ := htable _ (Kind.mem_of_lookup h)
  rw [scanStep_eq_simplePiece hl hq hs hp, simplePiece, h]

theorem scanStep_number (h : Number.IsNumeral (c :: cs))
    (hn : ∀ d, rest.head? = some d → d.isDigit = false ∧ d ≠ '.') :
    scanStep p c (cs ++ rest) = .ok (plain .number (c :: cs) rest) := by
  have hc := h.digit_or_point List.mem_cons_self
  have hother : c.isAlphanum = true ∨ c = '.' ∨ Text.isBlank c = true := by
    rcases hc with hc | hc <;> simp [hc, Char.isAlphanum]
  rw [scanStep_eq_of_other (begins_other hother), if_pos (by simpa using hc), ← List.cons_append,
    numberPiece_eq_ok h hn]

theorem scanStep_word (hc : c.isAlpha = true) (hs : ∀ d ∈ cs, d.isAlphanum = true)
    (hn : ∀ d, rest.head? = some d → d.isAlphanum = false) :
    scanStep p c (cs ++ rest) =
      .ok (plain (Kind.ofWord (String.ofList (c :: cs))) (c :: cs) rest) := by
  have halnum : c.isAlphanum = true := by simp [Char.isAlphanum, hc]
  have hpoint : (c == '.') = false := beq_false_of_ne fun h => by
    subst h
    exact absurd hc (by decide)
  have hall : ∀ d ∈ c :: cs, d.isAlphanum = true := List.forall_mem_cons.2 ⟨halnum, hs⟩
  rw [scanStep_eq_of_other (begins_other (Or.inl halnum)), isDigit_of_isAlpha hc, hpoint,
    if_neg (by decide), if_pos hc, ← List.cons_append, wordPiece_eq hall hn]

/-- **A step takes off the longest match** that begins in its place. -/
theorem scanStep_longestMatch {k : Kind} {content : List Char}
    (h : LongestMatch rest k content (c :: cs)) :
    scanStep p c (cs ++ rest) = .ok ⟨some (k, String.ofList content), c :: cs, rest⟩ := by
  cases h with
  | string h => rw [List.append_assoc]; exact scanStep_string h
  | pair h => exact scanStep_pair h
  | single h hp hs => exact scanStep_single h hp hs
  | number h hn => exact scanStep_number h hn
  | word hc hs hn => exact scanStep_word hc hs hn

end Scan

/-! ## The whole text -/

section

variable {p : Position} {cs rest : List Char} {done : List Lexeme}

theorem scanFrom_step {c : Char} {piece : Piece} (h : Scan.scanStep p c cs = .ok piece) :
    scanFrom p (c :: cs) done =
      scanFrom (p.after piece.taken) piece.rest ((piece.lexeme? p).toList ++ done) := by
  rw [scanFrom]
  split
  · next hstep => rw [h] at hstep; cases hstep
  · next hstep => rw [h] at hstep; cases hstep; rfl

theorem scanFrom_stop {c : Char} {e : LexError} (h : Scan.scanStep p c cs = .error e) :
    scanFrom p (c :: cs) done = .error e := by
  rw [scanFrom]
  split
  · next hstep => rw [h] at hstep; cases hstep; rfl
  · next hstep => rw [h] at hstep; cases hstep

theorem Layout.scanFrom_eq (h : Layout rest cs) :
    scanFrom p (cs ++ rest) done = scanFrom (p.after cs) rest done := by
  induction h generalizing p with
  | nil => rfl
  | blank hc _ ih =>
    rw [List.cons_append, scanFrom_step (Scan.scanStep_blank hc)]
    exact ih
  | line hb hn _ ih =>
    rw [List.cons_append, List.append_assoc, scanFrom_step (Scan.scanStep_line hb hn),
      ← List.cons_append, Position.after_append]
    exact ih
  | @block body cs hb _ ih =>
    have htext : '/' :: '*' :: (body ++ '*' :: '/' :: cs) =
        ('/' :: '*' :: (body ++ ['*', '/'])) ++ cs := by simp
    rw [htext, List.append_assoc, Position.after_append, ← ih, List.cons_append, List.cons_append,
      List.append_assoc]
    exact scanFrom_step (Scan.scanStep_block hb)

theorem LongestMatch.scanFrom_eq {k : Kind} {text : String}
    (h : LongestMatch rest k text.toList cs) :
    scanFrom p (cs ++ rest) done =
      scanFrom (p.after cs) rest (⟨k, text, p, some (p.after cs)⟩ :: done) := by
  cases cs with
  | nil => exact absurd rfl h.ne_nil
  | cons c cs =>
    rw [List.cons_append, scanFrom_step (Scan.scanStep_longestMatch h), String.ofList_toList]
    rfl

/-- **The scanner follows a division** and goes on behind it. -/
theorem Divided.scanFrom_eq {tokens : List Lexeme} (h : Divided rest p cs tokens) :
    scanFrom p (cs ++ rest) done = scanFrom (p.after cs) rest (tokens.reverse ++ done) := by
  induction h generalizing done with
  | done h => exact h.scanFrom_eq
  | token hg hm _ ih =>
    rw [List.append_assoc, List.append_assoc, hg.scanFrom_eq, hm.scanFrom_eq,
      ← Position.after_append, ih, ← List.append_assoc, Position.after_append _ (_ ++ _)]
    simp

end

/-- **The lexemes of a text** are the tokens of its division and the end of input. -/
theorem scan_eq_ok_iff {source : String} {lexemes : List Lexeme} :
    scan source = .ok lexemes ↔ ∃ tokens, Divided [] .start source.toList tokens ∧
      lexemes = tokens ++ [.endAt (Position.start.after source.toList)] := by
  constructor
  · intro h
    obtain ⟨found, rfl, hfound⟩ := scanFrom_tokenized h
    obtain ⟨tokens, rfl, hd⟩ := hfound.divided
    exact ⟨tokens, hd, rfl⟩
  · rintro ⟨tokens, hd, rfl⟩
    rw [scan, ← List.append_nil source.toList, hd.scanFrom_eq, scanFrom, List.append_nil]
    simp [Lexeme.endAt]

end BoxScript
