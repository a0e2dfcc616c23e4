/-
  Where the lexemes of a text stand, and where a malformed one is reported.

  The scanner moves its place on by one character at a time.  Here a place is counted in the text.

  * `placeAt cs n`: the place at the offset `n` of the text, by the line feeds before it;
  * `Position.after_take`: this is where the scanner is after `n` characters;
  * `Malformed cause lead rest`: the text `lead ++ rest` begins with a malformed lexeme, and the
    fault is found after `lead`;
  * `scanFrom_error`: the scanner stops at the first malformed lexeme;
  * `scan_places`: **places are exact**, those of the lexemes and those of the errors.
-/
import BoxScript.Proofs.Token.Division

namespace BoxScript

/-! ## Places in a text -/

/-- The last line feed before the offset `n`. -/
def lastBreak? (cs : List Char) (n : Nat) : Option Nat :=
  ((List.range n).filter fun i => cs[i]? = some '\n').getLast?

/-- The place at the offset `n`: its line is one more than the number of line feeds before it, and
    its column is how far the last of them lies behind. -/
def placeAt (cs : List Char) (n : Nat) : Position where
  offset := n
  line := 1 + (cs.take n).count '\n'
  column := (lastBreak? cs n).elim (n + 1) (n - ·)

theorem lastBreak?_succ (cs : List Char) (n : Nat) :
    lastBreak? cs (n + 1) = if cs[n]? = some '\n' then some n else lastBreak? cs n := by
  unfold lastBreak?
  rw [List.range_succ, List.filter_append]
  split <;> simp [*]

theorem lastBreak?_lt {cs : List Char} {n i : Nat} (h : lastBreak? cs n = some i) : i < n := by
  have hmem := List.mem_of_getLast? h
  exact List.mem_range.1 (List.mem_filter.1 hmem).1

/-- One step of the scanner goes from one offset to the next. -/
theorem placeAt_succ {cs : List Char} {n : Nat} {c : Char} (h : cs[n]? = some c) :
    placeAt cs (n + 1) = (placeAt cs n).step c := by
  have hcount : (cs.take (n + 1)).count '\n' = (cs.take n).count '\n' + [c].count '\n' := by
    rw [List.take_add_one, h, List.count_append]
    rfl
  by_cases hc : c = '\n'
  · subst hc
    simp [placeAt, Position.step, lastBreak?_succ, h, hcount, Nat.add_assoc]
  · have hlast : lastBreak? cs (n + 1) = lastBreak? cs n := by simp [lastBreak?_succ, h, hc]
    have hcolumn : (lastBreak? cs n).elim (n + 1 + 1) (n + 1 - ·) =
        (lastBreak? cs n).elim (n + 1) (n - ·) + 1 := by
      cases hb : lastBreak? cs n with
      | none => rfl
      | some i =>
        have := lastBreak?_lt hb
        simp only [Option.elim_some]
        omega
    simp [placeAt, Position.step, hlast, hcount, hc, hcolumn]

/-- **A place is counted in the text before it.** -/
theorem Position.after_take {cs : List Char} {n : Nat} (h : n ≤ cs.length) :
    Position.start.after (cs.take n) = placeAt cs n := by
  induction n with
  | zero => rfl
  | succ n ih =>
    have hn : cs[n]? = some cs[n] := List.getElem?_eq_getElem h
    rw [placeAt_succ hn, ← ih (Nat.le_of_succ_le h), List.take_add_one, hn, after_append]
    rfl

theorem Position.after_eq_placeAt (before rest : List Char) :
    Position.start.after before = placeAt (before ++ rest) before.length := by
  rw [← after_take (by simp), List.take_left]

/-- The token stands in the text `cs` at the places that it says. -/
structure Lexeme.PlacedIn (cs : List Char) (l : Lexeme) : Prop where
  notEnd : l.kind ≠ .endOfInput
  start : l.start = placeAt cs l.start.offset
  stop : l.stop = some (placeAt cs l.past)

/-- The tokens of a division stand at their places, if `before` comes before the text. -/
theorem Divided.placedIn {rest cs : List Char} {p : Position} {tokens : List Lexeme}
    (h : Divided rest p cs tokens) {before : List Char} (hp : p = Position.start.after before) :
    ∀ l ∈ tokens, l.PlacedIn (before ++ (cs ++ rest)) := by
  induction h generalizing before with
  | done => simp
  | @token p gap cs more k text tokens hg hm h ih =>
    subst hp
    -- the whole text, divided before and after the token
    have hgap : before ++ (gap ++ (cs ++ more) ++ rest) =
        before ++ gap ++ (cs ++ (more ++ rest)) := by simp only [List.append_assoc]
    have hcs : before ++ (gap ++ (cs ++ more) ++ rest) =
        before ++ (gap ++ cs) ++ (more ++ rest) := by simp only [List.append_assoc]
    rw [← Position.after_append] at ih
    refine List.forall_mem_cons.2 ⟨⟨hm.ne_endOfInput, ?_, ?_⟩, ?_⟩
    · rw [hgap, ← Position.after_append, Position.after_eq_placeAt (before ++ gap)]
      rfl
    · show some ((Position.start.after before).after (gap ++ cs)) =
        some (placeAt _ ((Position.start.after before).after (gap ++ cs)).offset)
      rw [hcs, ← Position.after_append, Position.after_eq_placeAt (before ++ (gap ++ cs))]
      rfl
    · rw [hcs]
      exact ih rfl

/-! ## Malformed lexemes -/

/-- The text begins with a malformed lexeme: the fault is found after `lead`, before `rest`. -/
inductive Malformed : LexCause → List Char → List Char → Prop
  | comment {body} (h : ¬['*', '/'] <:+: body) :
      Malformed .unterminatedComment [] ('/' :: '*' :: body)
  | string {body content tail} (h : StringBody body content) (ht : tail = [] ∨ tail = ['\\']) :
      Malformed .unterminatedString [] ('"' :: (body ++ tail))
  | escape {body content letter rest} (h : StringBody body content)
      (hl : letter ∉ ['n', 't', '"', '\\']) :
      Malformed (.invalidEscape letter) ('"' :: body) ('\\' :: letter :: rest)
  | lonePoint {rest} (h : ∀ d, rest.head? = some d → d.isDigit = false ∧ d ≠ '.') :
      Malformed .lonePoint [] ('.' :: rest)
  | secondPoint {ds fs rest} (hd : ∀ c ∈ ds, c.isDigit = true) (hf : ∀ c ∈ fs, c.isDigit = true) :
      Malformed .secondPoint (ds ++ '.' :: fs) ('.' :: rest)
  | character {c rest} (ho : Kind.ofChar? c = none) (ha : c.isAlphanum = false)
      (hb : Text.isBlank c = false) (hm : c ∉ ['#', '"', '.']) :
      Malformed (.unexpectedCharacter c) [] (c :: rest)

theorem Malformed.rest_ne_nil {cause : LexCause} {lead rest : List Char}
    (h : Malformed cause lead rest) : rest ≠ [] := by
  cases h <;> simp

/-- The error is that of a malformed lexeme with which the text begins at the place `p`. -/
def LexError.Blames (e : LexError) (p : Position) (cs : List Char) : Prop :=
  ∃ lead rest, cs = lead ++ rest ∧ e.place = p.after lead ∧ Malformed e.cause lead rest

namespace Scan

variable {p : Position} {c : Char} {cs : List Char} {e : LexError}

theorem closeComment?_eq_none (h : closeComment? cs = none) : ¬['*', '/'] <:+: cs := by
  fun_induction closeComment? cs with
  | case1 => cases h
  | case2 c cs hne ih =>
    intro hin
    rcases List.infix_cons_iff.1 hin with ⟨more, hmore⟩ | hin
    · obtain ⟨rfl, hcs⟩ := List.cons.inj hmore
      exact hne more rfl hcs.symm
    · exact ih (by simpa using h) hin
  | case3 => simp

theorem escaped?_eq_none {letter : Char} (h : escaped? letter = none) :
    letter ∉ ['n', 't', '"', '\\'] := by
  intro hl
  simp only [List.mem_cons, List.not_mem_nil, or_false] at hl
  rcases hl with rfl | rfl | rfl | rfl <;> cases h

/-- The characters `tail`, at the place `p`, keep a string from being closed. -/
inductive StringFault (start p : Position) : LexError → List Char → Prop
  | unterminated {tail} (ht : tail = [] ∨ tail = ['\\']) :
      StringFault start p ⟨.unterminatedString, start⟩ tail
  | escape {letter rest} (hl : letter ∉ ['n', 't', '"', '\\']) :
      StringFault start p ⟨.invalidEscape letter, p⟩ ('\\' :: letter :: rest)

theorem stringTail_error {start : Position} (h : stringTail start p cs = .error e) :
    ∃ body content tail, cs = body ++ tail ∧ StringBody body content ∧
      StringFault start (p.after body) e tail := by
  fun_induction stringTail start p cs with
  | case1 =>
    cases h
    exact ⟨[], [], [], rfl, .nil, .unterminated (Or.inl rfl)⟩
  | case2 => cases h
  | case3 p letter rest he =>
    cases h
    exact ⟨[], [], _, rfl, .nil, .escape (escaped?_eq_none he)⟩
  | case4 p letter rest c he ih =>
    obtain ⟨body, content, tail, rfl, hb, hfault⟩ := ih (map_eq_error_iff.1 h)
    exact ⟨'\\' :: letter :: body, c :: content, tail, rfl, .escape he hb, hfault⟩
  | case5 p c rest hquote hescape ih =>
    have herror := map_eq_error_iff.1 h
    by_cases hc : c = '\\'
    · -- a backslash at the very end
      cases rest with
      | nil =>
        cases herror
        exact ⟨[], [], [c], rfl, .nil, .unterminated (Or.inr (by rw [hc]))⟩
      | cons letter rest => exact absurd rfl (hescape letter rest hc)
    · obtain ⟨body, content, tail, rfl, hb, hfault⟩ := ih herror
      exact ⟨c :: body, c :: content, tail, rfl, .plain hquote hc hb, hfault⟩

theorem stringPiece_error (h : stringPiece p cs = .error e) : e.Blames p ('"' :: cs) := by
  unfold stringPiece at h
  split at h
  · cases h
  · next htail =>
    cases h
    obtain ⟨body, content, tail, rfl, hb, hfault⟩ := stringTail_error htail
    cases hfault with
    | unterminated ht => exact ⟨[], _, rfl, rfl, .string hb ht⟩
    | escape hl => exact ⟨'"' :: body, _, rfl, rfl, .escape hb hl⟩

theorem fractionPiece_error {digits fraction rest : List Char}
    (hd : ∀ c ∈ digits, c.isDigit = true) (hf : ∀ c ∈ fraction, c.isDigit = true)
    (hn : ∀ d, rest.head? = some d → d.isDigit = false)
    (h : fractionPiece p digits fraction rest = .error e) :
    e.Blames p (digits ++ '.' :: (fraction ++ rest)) := by
  unfold fractionPiece at h
  split at h
  · next tail =>
    cases h
    exact ⟨digits ++ '.' :: fraction, '.' :: tail, by simp, rfl, .secondPoint hd hf⟩
  · next hpoint =>
    split at h
    · next hempty =>
      cases h
      simp only [Bool.and_eq_true, List.isEmpty_iff] at hempty
      obtain ⟨rfl, rfl⟩ := hempty
      refine ⟨[], _, rfl, rfl, .lonePoint fun d hd => ⟨hn d hd, ?_⟩⟩
      rintro rfl
      obtain ⟨tail, rfl⟩ := List.head?_eq_some_iff.1 hd
      exact hpoint tail rfl
    · cases h

theorem numberPiece_error (h : numberPiece p cs = .error e) : e.Blames p cs := by
  unfold numberPiece digitsPiece at h
  split at h
  · next after hafter =>
    have hblames := fractionPiece_error (fun _ => mem_takeWhile) (fun _ => mem_takeWhile)
      (fun _ => head_dropWhile) h
    rwa [List.takeWhile_append_dropWhile, ← hafter, List.takeWhile_append_dropWhile] at hblames
  · cases h

theorem simplePiece_error (hl : c ≠ '#') (hq : c ≠ '"') (h : simplePiece p c cs = .error e) :
    e.Blames p (c :: cs) := by
  unfold simplePiece at h
  split at h
  · cases h
  · next ho =>
    split at h
    · exact numberPiece_error h
    · next hnumber =>
      split at h
      · cases h
      · next ha =>
        split at h
        · cases h
        · next hb =>
          cases h
          simp only [Bool.or_eq_true, beq_iff_eq, not_or] at hnumber
          refine ⟨[], _, rfl, rfl, .character ho ?_ (by simpa using hb) ?_⟩
          · simp [Char.isAlphanum, ha, hnumber.1]
          · simp [hl, hq, hnumber.2]

/-- **A step fails at a malformed lexeme only.** -/
theorem scanStep_error (h : scanStep p c cs = .error e) : e.Blames p (c :: cs) := by
  unfold scanStep at h
  split at h
  · cases h
  · split at h
    · cases h
    · next hclose =>
      cases h
      exact ⟨[], _, rfl, rfl, .comment (closeComment?_eq_none hclose)⟩
  · exact stringPiece_error h
  · next hl _ hq =>
    split at h
    · cases h
    · exact simplePiece_error hl hq h
  · next hl hq => exact simplePiece_error hl hq h

end Scan

/-! ## The whole text -/

/-- The scanner stops at the first malformed lexeme. -/
theorem scanFrom_error {p : Position} {cs : List Char} {done : List Lexeme} {e : LexError}
    (h : scanFrom p cs done = .error e) :
    ∃ before rest tokens, cs = before ++ rest ∧ Divided rest p before tokens ∧
      e.Blames (p.after before) rest := by
  fun_induction scanFrom p cs done with
  | case1 => cases h
  | case2 p done c cs e' hstep =>
    cases h
    exact ⟨[], _, [], rfl, .done .nil, Scan.scanStep_error hstep⟩
  | case3 p done c cs piece hstep ih =>
    obtain ⟨before, rest, tokens, hrest, hd, hblames⟩ := ih h
    have hsound := Scan.scanStep_sound hstep
    obtain ⟨hsplit, -⟩ := Scan.scanStep_split hstep
    rw [hrest] at hsplit
    rw [← Position.after_append] at hblames
    unfold Piece.Sound at hsound
    cases hf : piece.found with
    | none =>
      rw [hf, hrest] at hsound
      exact ⟨piece.taken ++ before, rest, tokens, by rw [← hsplit, List.append_assoc],
        hd.layout hsound, hblames⟩
    | some token =>
      rw [hf, hrest] at hsound
      exact ⟨piece.taken ++ before, rest, _, by rw [← hsplit, List.append_assoc],
        .token .nil hsound hd, hblames⟩

/-! What was found in a text is found again if the text is cut off behind it, or goes on there with
another line. -/

/-- Another text begins like the first one, or with a new line, or is empty.  So no token before it
    is longer than before the first one. -/
def BeginsLike (rest rest' : List Char) : Prop :=
  ∀ d, rest'.head? = some d → rest.head? = some d ∨ d = '\n'

section

variable {rest rest' : List Char}

theorem BeginsLike.append (hh : BeginsLike rest rest') (cs : List Char) :
    BeginsLike (cs ++ rest) (cs ++ rest') := by
  intro d hd
  cases cs with
  | nil => exact hh d hd
  | cons c cs => exact Or.inl hd

theorem Layout.of_beginsLike (hh : BeginsLike rest rest') {cs : List Char} (h : Layout rest cs) :
    Layout rest' cs := by
  induction h with
  | nil => exact .nil
  | blank hc _ ih => exact .blank hc ih
  | line hb hn _ ih => exact .line hb (fun c hc => (hh.append _ c hc).elim (hn c) id) ih
  | block hb _ ih => exact .block hb ih

/-- No operator has a line feed for its second character. -/
theorem Kind.ofPair?_lineFeed (c : Char) : Kind.ofPair? c '\n' = none := by
  have htable : ∀ p ∈ Kind.pairOperators, p.1.2 ≠ '\n' := by decide
  cases hk : Kind.ofPair? c '\n' with
  | none => rfl
  | some k => exact absurd rfl (htable _ (Kind.mem_of_lookup hk))

theorem LongestMatch.of_beginsLike (hh : BeginsLike rest rest') {k : Kind}
    {content cs : List Char} (h : LongestMatch rest k content cs) :
    LongestMatch rest' k content cs := by
  cases h with
  | string h => exact .string h
  | pair h => exact .pair h
  | single h hp hs =>
    refine .single h (fun d hd => ?_) fun hc hd => ?_
    · rcases hh d hd with hd | rfl
      · exact hp d hd
      · exact Kind.ofPair?_lineFeed _
    · exact hs hc ((hh _ hd).resolve_right (by decide))
  | number h hn =>
    refine .number h fun d hd => ?_
    rcases hh d hd with hd | rfl
    · exact hn d hd
    · decide
  | word hc hs hn =>
    refine .word hc hs fun d hd => ?_
    rcases hh d hd with hd | rfl
    · exact hn d hd
    · decide

theorem Divided.of_beginsLike (hh : BeginsLike rest rest') {p : Position} {cs : List Char}
    {tokens : List Lexeme} (h : Divided rest p cs tokens) : Divided rest' p cs tokens := by
  induction h with
  | done h => exact .done (h.of_beginsLike hh)
  | token hg hm _ ih =>
    exact .token (hg.of_beginsLike ((hh.append _).append _)) (hm.of_beginsLike (hh.append _)) ih

theorem Divided.cut {p : Position} {cs : List Char} {tokens : List Lexeme}
    (h : Divided rest p cs tokens) : Divided [] p cs tokens :=
  h.of_beginsLike fun _ hd => by cases hd

end

/-- **Places are exact.**  If a text can be scanned, its tokens stand at the places that are counted
    in the text, and the end of input at its end.  If not, there is a malformed lexeme at an
    offset `q`: the text before it can be scanned, and is divided into the tokens there.  The error
    is reported at the place that is counted up to the offset `p` of the fault. -/
theorem scan_places (source : String) :
    (∀ lexemes, scan source = .ok lexemes → ∃ tokens,
      lexemes = tokens ++ [.endAt (placeAt source.toList source.toList.length)] ∧
      Divided [] .start source.toList tokens ∧ ∀ l ∈ tokens, l.PlacedIn source.toList) ∧
    ∀ e, scan source = .error e → ∃ q p tokens, q ≤ p ∧ p < source.toList.length ∧
      e.place = placeAt source.toList p ∧
      Malformed e.cause (between source.toList q p) (source.toList.drop p) ∧
      Divided (source.toList.drop q) .start (source.toList.take q) tokens ∧
      scan (String.ofList (source.toList.take q)) =
        .ok (tokens ++ [.endAt (placeAt source.toList q)]) := by
  constructor
  · intro lexemes h
    obtain ⟨tokens, hd, rfl⟩ := scan_eq_ok_iff.1 h
    refine ⟨tokens, ?_, hd, ?_⟩
    · rw [← Position.after_take (Nat.le_refl _), List.take_length]
    · have hplaced := hd.placedIn (Position.after_nil .start).symm
      rwa [List.nil_append, List.append_nil] at hplaced
  · intro e h
    obtain ⟨before, _, tokens, hsource, hd, lead, rest, rfl, hplace, hm⟩ := scanFrom_error h
    have hlead : before ++ (lead ++ rest) = before ++ lead ++ rest := by rw [List.append_assoc]
    rw [hsource]
    refine ⟨before.length, (before ++ lead).length, tokens, by simp, ?_, ?_, ?_, ?_, ?_⟩
    · have := List.length_pos_iff.2 hm.rest_ne_nil
      simp only [List.length_append]
      omega
    · rw [hplace, ← Position.after_append, hlead]
      exact Position.after_eq_placeAt _ _
    · rw [List.length_append, between_append, ← List.length_append, hlead, List.drop_left]
      exact hm
    · rw [List.drop_left, List.take_left]
      exact hd
    · rw [List.take_left, scan_eq_ok_iff, String.toList_ofList,
        Position.after_eq_placeAt before (lead ++ rest)]
      exact ⟨tokens, hd.cut, rfl⟩

/-- A text with an escape in a string of its second line that there is not. -/
def misspelled : String := "a\n\"b\\n\\q"

/-- The string begins at the offset 2, and the escape at the offset 6. -/
theorem scan_places_misspelled :
    scan misspelled = .error ⟨.invalidEscape 'q', ⟨6, 2, 5⟩⟩ ∧
      (∃ q p tokens, q ≤ p ∧ p < misspelled.toList.length ∧
        (⟨6, 2, 5⟩ : Position) = placeAt misspelled.toList p ∧
        Malformed (.invalidEscape 'q') (between misspelled.toList q p)
          (misspelled.toList.drop p) ∧
        Divided (misspelled.toList.drop q) .start (misspelled.toList.take q) tokens ∧
        scan (String.ofList (misspelled.toList.take q)) =
          .ok (tokens ++ [.endAt (placeAt misspelled.toList q)])) ∧
      scan crowded = .ok crowdedLexemes ∧
      ∃ tokens, crowdedLexemes = tokens ++ [.endAt (placeAt crowded.toList crowded.toList.length)] ∧
        Divided [] .start crowded.toList tokens ∧ ∀ l ∈ tokens, l.PlacedIn crowded.toList := by
  have herror : scan misspelled = .error ⟨.invalidEscape 'q', ⟨6, 2, 5⟩⟩ := by decide +kernel
  have hscan : scan crowded = .ok crowdedLexemes := by decide +kernel
  exact ⟨herror, (scan_places misspelled).2 _ herror, hscan, (scan_places crowded).1 _ hscan⟩

end BoxScript
