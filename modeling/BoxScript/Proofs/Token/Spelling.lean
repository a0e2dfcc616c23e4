/-
  How the tokens of a text are spelled.

  A spelling is looked up three times: the scanner finds the kind of a token by it, the grammar
  puts it into the tree by the kind, and evaluation finds the operator, or the number, by the
  spelling again.

  * `Number.read?_isSome`: digits with at most one point denote a number;
  * `Kind.SpelledBy k text`: evaluation knows the text, if the grammar takes it for a token of
    the kind `k`;
  * `scan_spelled`: **the tables agree**: each token of a text is spelled so, and the last one is
    the end of input.
-/
import BoxScript.Number.Reading
import BoxScript.Proofs.Lists
import BoxScript.Token.Scan
import BoxScript.Value.Operator

namespace BoxScript

/-! ## Numerals -/

namespace Number

/-- Digits, with at most one point among or beside them. -/
inductive IsNumeral : List Char → Prop
  | whole {ds} (hd : ∀ c ∈ ds, c.isDigit = true) (hne : ds ≠ []) : IsNumeral ds
  | point {ds fs} (hd : ∀ c ∈ ds, c.isDigit = true) (hf : ∀ c ∈ fs, c.isDigit = true)
      (hne : ds ≠ [] ∨ fs ≠ []) : IsNumeral (ds ++ '.' :: fs)

/-- The characters of a written number. -/
def IsWritten (c : Char) : Prop := c.isDigit = true ∨ c ∈ ['.', 'e', '+', '-']

variable {c : Char} {cs ds fs rest : List Char}

theorem toNat_of_isDigit (h : c.isDigit = true) : 48 ≤ c.toNat ∧ c.toNat ≤ 57 :=
  Char.isDigit_iff_toNat.1 h

theorem IsWritten.bounds (h : IsWritten c) : 43 ≤ c.toNat ∧ c.toNat ≤ 101 ∧ c.toNat ≠ 95 := by
  rcases h with h | h
  · have := toNat_of_isDigit h
    omega
  · simp only [List.mem_cons, List.not_mem_nil, or_false] at h
    rcases h with rfl | rfl | rfl | rfl <;> decide

theorem ne_of_toNat {d : Char} (h : c.toNat ≠ d.toNat) : c ≠ d := fun hc => h (congrArg _ hc)

theorem IsWritten.not_blank (h : IsWritten c) : isPlainBlank c = false := by
  have hbounds := h.bounds
  have hspace : (c == ' ') = false := beq_false_of_ne fun hc => by
    rw [hc] at hbounds
    exact absurd hbounds.1 (by decide)
  have hreturn : ¬c ≤ '\r' := fun hle => by
    have hle : c.toNat ≤ 13 := hle
    omega
  simp [isPlainBlank, hspace, hreturn]

theorem dropUnderscores_eq_some (h : ∀ c ∈ cs, c ≠ '_') (afterDigit : Bool) :
    dropUnderscores afterDigit cs = some cs := by
  induction cs generalizing afterDigit with
  | nil => rfl
  | cons c cs ih =>
    rw [dropUnderscores]
    · rw [ih (fun d hd => h d (by simp [hd]))]
      rfl
    · exact fun hc => h c (by simp) hc

/-- Written characters are read as they are, after the sign. -/
theorem read?_written (h : ∀ c ∈ cs, IsWritten c) : read? (String.ofList cs) =
    (readWord? (readSign cs).1 (readSign cs).2).orElse fun _ =>
      readDecimal? (readSign cs).1 (readSign cs).2 := by
  have hplain : cs.map plainChar = cs := by
    refine (List.map_congr_left fun c hc => ?_).trans (List.map_id cs)
    have := (h c hc).bounds
    exact if_pos (by omega)
  have hblank : ∀ c ∈ cs, isPlainBlank c = false := fun c hc => (h c hc).not_blank
  have htrim : ((cs.dropWhile isPlainBlank).reverse.dropWhile isPlainBlank).reverse = cs := by
    rw [dropWhile_eq_self hblank, dropWhile_eq_self (by simpa using hblank), List.reverse_reverse]
  have hunder : dropUnderscores false cs = some cs :=
    dropUnderscores_eq_some (fun c hc => ne_of_toNat (h c hc).bounds.2.2) false
  simp [read?, hplain, htrim, hunder]

theorem readSign_eq_self (h : ∀ c ∈ cs.head?, c ≠ '-' ∧ c ≠ '+') : readSign cs = (false, cs) := by
  unfold readSign
  split
  · exact absurd rfl (h _ rfl).1
  · exact absurd rfl (h _ rfl).2
  · rfl

theorem takeWhile_digits (hd : ∀ c ∈ ds, c.isDigit = true) :
    ds.takeWhile Char.isDigit = ds ∧ ds.dropWhile Char.isDigit = [] := by
  have hnil : ∀ c ∈ ([] : List Char).head?, c.isDigit = false := by simp
  simpa using span_eq hd hnil

theorem readDecimal?_isSome (h : IsNumeral cs) (negative : Bool) :
    (readDecimal? negative cs).isSome = true := by
  cases h with
  | whole hd hne =>
    obtain ⟨ht, hr⟩ := takeWhile_digits hd
    simp [readDecimal?, ht, hr, hne, readExponent?]
  | @point ds fs hd hf hne =>
    have hstop : ∀ c ∈ ('.' :: fs).head?, c.isDigit = false := by simp
    obtain ⟨ht, hr⟩ := span_eq hd hstop
    obtain ⟨htf, hrf⟩ := takeWhile_digits hf
    have hboth : ds = [] → fs ≠ [] := fun hd => hne.resolve_left (· hd)
    simpa [readDecimal?, ht, hr, htf, hrf, readExponent?] using hboth

theorem IsNumeral.digit_or_point (h : IsNumeral cs) (hc : c ∈ cs) : c.isDigit = true ∨ c = '.' := by
  cases h with
  | whole hd => exact Or.inl (hd c hc)
  | point hd hf =>
    simp only [List.mem_append, List.mem_cons] at hc
    rcases hc with hc | rfl | hc
    · exact Or.inl (hd c hc)
    · exact Or.inr rfl
    · exact Or.inl (hf c hc)

/-- **A numeral denotes a number.** -/
theorem read?_isSome (h : IsNumeral cs) : (read? (String.ofList cs)).isSome = true := by
  have hwritten : ∀ c ∈ cs, IsWritten c := fun c hc =>
    (h.digit_or_point hc).imp_right fun hc => by simp [hc]
  have hsign : readSign cs = (false, cs) := readSign_eq_self fun c hc => by
    rcases h.digit_or_point (List.mem_of_mem_head? hc) with hd | rfl
    · constructor <;> rintro rfl <;> cases hd
    · decide
  rw [read?_written hwritten, hsign]
  cases readWord? false cs with
  | some x => rfl
  | none => exact readDecimal?_isSome h false

end Number

/-! ## The tables -/

/-- Evaluation knows the text, if a token of this kind is an operator or a number. -/
structure Kind.SpelledBy (k : Kind) (text : String) : Prop where
  arithmetic : k.isArithmetic = true → (Arithmetic.ofText? text).isSome = true
  comparison : k.isComparison = true → (Comparison.ofText? text).isSome = true
  logical : k.isLogical = true → text = "and" ∨ text = "or"
  minus : k = .minus → Value.isNegation text = true
  number : k = .number → (Number.read? text).isSome = true

instance (k : Kind) (text : String) : Decidable (k.SpelledBy text) :=
  decidable_of_iff
    ((k.isArithmetic = true → (Arithmetic.ofText? text).isSome = true) ∧
      (k.isComparison = true → (Comparison.ofText? text).isSome = true) ∧
      (k.isLogical = true → text = "and" ∨ text = "or") ∧
      (k = .minus → Value.isNegation text = true) ∧
      (k = .number → (Number.read? text).isSome = true))
    ⟨fun ⟨ha, hc, hl, hm, hn⟩ => ⟨ha, hc, hl, hm, hn⟩,
      fun h => ⟨h.arithmetic, h.comparison, h.logical, h.minus, h.number⟩⟩

namespace Kind

theorem keywords_spelled : ∀ p ∈ keywords, p.2.SpelledBy p.1 := by decide

theorem pairOperators_spelled :
    ∀ p ∈ pairOperators, p.2.SpelledBy (String.ofList [p.1.1, p.1.2]) := by decide

theorem singleOperators_spelled :
    ∀ p ∈ singleOperators, p.2.SpelledBy (String.ofList [p.1]) := by decide

theorem spelledBy_number {text : String} (h : (Number.read? text).isSome = true) :
    number.SpelledBy text where
  arithmetic := nofun
  comparison := nofun
  logical := nofun
  minus := nofun
  number _ := h

/-- A kind that is neither an operator nor a number has any text. -/
theorem spelledBy_of_mem {k : Kind} (hk : k ∈ [identifier, string, endOfInput]) (text : String) :
    k.SpelledBy text := by
  simp only [List.mem_cons, List.not_mem_nil, or_false] at hk
  rcases hk with rfl | rfl | rfl <;> exact ⟨nofun, nofun, nofun, nofun, nofun⟩

theorem mem_of_lookup {α β : Type} [BEq α] [LawfulBEq α] {l : List (α × β)} {a : α} {b : β}
    (h : l.lookup a = some b) : (a, b) ∈ l := by
  obtain ⟨l₁, l₂, rfl, -⟩ := List.lookup_eq_some_iff.1 h
  simp

theorem ofWord_spelled (word : String) : (ofWord word).SpelledBy word := by
  unfold ofWord
  cases h : keywords.lookup word with
  | none => exact spelledBy_of_mem (by simp) word
  | some k => exact keywords_spelled _ (mem_of_lookup h)

theorem ofPair?_spelled {c d : Char} {k : Kind} (h : ofPair? c d = some k) :
    k.SpelledBy (String.ofList [c, d]) :=
  pairOperators_spelled _ (mem_of_lookup h)

theorem ofChar?_spelled {c : Char} {k : Kind} (h : ofChar? c = some k) :
    k.SpelledBy (String.ofList [c]) :=
  singleOperators_spelled _ (mem_of_lookup h)

end Kind

/-! ## Scanning -/

/-- The token of the piece, if any, is spelled as its kind demands. -/
def Piece.Spelled (piece : Piece) : Prop :=
  ∀ k text, piece.found = some (k, text) → k.SpelledBy text

namespace Scan

theorem plain_spelled {k : Kind} {taken rest : List Char} (h : k.SpelledBy (String.ofList taken)) :
    (plain k taken rest).Spelled := by
  rintro _ _ ⟨⟩
  exact h

theorem layout_spelled {taken rest : List Char} : (layout taken rest).Spelled := nofun

theorem stringPiece_spelled {p : Position} {cs : List Char} {piece : Piece}
    (h : stringPiece p cs = .ok piece) : piece.Spelled := by
  unfold stringPiece at h
  split at h
  · cases h
    rintro _ text ⟨⟩
    exact Kind.spelledBy_of_mem (by simp) _
  · cases h

theorem fractionPiece_spelled {p : Position} {digits fraction rest : List Char} {piece : Piece}
    (hd : ∀ c ∈ digits, c.isDigit = true) (hf : ∀ c ∈ fraction, c.isDigit = true)
    (h : fractionPiece p digits fraction rest = .ok piece) : piece.Spelled := by
  unfold fractionPiece at h
  split at h
  · cases h
  · split at h
    · cases h
    · next hne =>
      cases h
      have hne : digits ≠ [] ∨ fraction ≠ [] := by
        by_cases hnil : digits = []
        · exact Or.inr (by simpa [hnil] using hne)
        · exact Or.inl hnil
      exact plain_spelled (Kind.spelledBy_number (Number.read?_isSome (.point hd hf hne)))

/-- A piece that begins with a digit or a point is a numeral. -/
theorem numberPiece_spelled {p : Position} {c : Char} {cs : List Char} {piece : Piece}
    (hc : (c.isDigit || c == '.') = true) (h : numberPiece p (c :: cs) = .ok piece) :
    piece.Spelled := by
  have hdigits : ∀ l : List Char, ∀ d ∈ l.takeWhile Char.isDigit, d.isDigit = true := fun l d hd =>
    List.all_eq_true.1 List.all_takeWhile d hd
  have hne := (numberPiece_split hc h).2
  unfold numberPiece digitsPiece at h
  split at h
  · exact fractionPiece_spelled (hdigits _) (hdigits _) h
  · cases h
    exact plain_spelled (Kind.spelledBy_number (Number.read?_isSome (.whole (hdigits _) hne)))

theorem simplePiece_spelled {p : Position} {c : Char} {cs : List Char} {piece : Piece}
    (h : simplePiece p c cs = .ok piece) : piece.Spelled := by
  unfold simplePiece at h
  split at h
  · next hk =>
    cases h
    exact plain_spelled (Kind.ofChar?_spelled hk)
  · split at h
    · next hc => exact numberPiece_spelled hc h
    · split at h
      · cases h
        exact plain_spelled (Kind.ofWord_spelled _)
      · split at h
        · cases h
          exact layout_spelled
        · cases h

theorem scanStep_spelled {p : Position} {c : Char} {cs : List Char} {piece : Piece}
    (h : scanStep p c cs = .ok piece) : piece.Spelled := by
  unfold scanStep at h
  split at h
  · cases h
    exact layout_spelled
  · split at h
    · cases h
      exact layout_spelled
    · cases h
  · exact stringPiece_spelled h
  · split at h
    · next hk =>
      cases h
      exact plain_spelled (Kind.ofPair?_spelled hk)
    · exact simplePiece_spelled h
  · exact simplePiece_spelled h

end Scan

/-- The token is spelled as its kind demands. -/
def Token.Spelled (t : Token) : Prop := t.kind.SpelledBy t.text

theorem Piece.Spelled.token {piece : Piece} (h : piece.Spelled) {p : Position} {l : Lexeme}
    (hl : piece.lexeme? p = some l) : l.token.Spelled := by
  obtain ⟨⟨k, text⟩, hf, rfl⟩ := Option.map_eq_some_iff.1 hl
  exact h k text hf

theorem scanFrom_spelled {p : Position} {cs : List Char} {done lexemes : List Lexeme}
    (h : scanFrom p cs done = .ok lexemes) (hdone : ∀ l ∈ done, l.token.Spelled) :
    (∀ l ∈ lexemes, l.token.Spelled) ∧
      ∃ last, lexemes.getLast? = some last ∧ last.kind = .endOfInput := by
  fun_induction scanFrom p cs done with
  | case1 p done =>
    cases h
    refine ⟨fun l hl => ?_, ⟨.endOfInput, "", p, none⟩, by simp, rfl⟩
    rcases List.mem_cons.1 (List.mem_reverse.1 hl) with rfl | hl
    · exact Kind.spelledBy_of_mem (k := .endOfInput) (by simp) _
    · exact hdone l hl
  | case2 => cases h
  | case3 p done c cs piece hstep ih =>
    refine ih h fun l hl => ?_
    rcases List.mem_append.1 hl with hl | hl
    · exact (Scan.scanStep_spelled hstep).token (Option.mem_toList.1 hl)
    · exact hdone l hl

/-- **The tables agree.**  Each token of a text is spelled as its kind demands, and the last one
    is the end of input. -/
theorem scan_spelled {source : String} {lexemes : List Lexeme} (h : scan source = .ok lexemes) :
    (∀ l ∈ lexemes, l.token.Spelled) ∧
      ∃ last, lexemes.getLast? = some last ∧ last.kind = .endOfInput :=
  scanFrom_spelled h (by simp)

end BoxScript
