/-
  What tokens are, and that scanning finds them all.

  The scanner takes pieces off a text one after the other.  Here it is said without it what the
  pieces may be: layout, or a token that could not be longer.

  * `Layout rest cs`: the characters `cs`, which stand before `rest`, are blanks and comments;
  * `LongestMatch rest k content cs`: the characters `cs`, which stand before `rest`, are a token
    of kind `k` that says `content`, and no longer token begins with them;
  * `scanStep_sound`: a step takes off layout or a longest match;
  * `Tokenized p cs lexemes`: from the place `p` on, the text `cs` is divided into the lexemes and
    the layout between them;
  * `scan_lossless`: **no character is lost**: of every text that can be scanned, the lexemes are
    longest matches at their places, and only layout stands between them.
-/
import BoxScript.Proofs.Token.Spelling

namespace BoxScript

/-! ## Layout -/

/-- Blanks and comments that stand before `rest`.  A line comment goes up to a line feed or to the
    end of the text, a block comment up to the first `*/`. -/
inductive Layout (rest : List Char) : List Char → Prop
  | nil : Layout rest []
  | blank {c cs} (hc : Text.isBlank c = true) (h : Layout rest cs) : Layout rest (c :: cs)
  | line {body cs} (hb : ∀ c ∈ body, c ≠ '\n')
      (hn : ∀ c, (cs ++ rest).head? = some c → c = '\n') (h : Layout rest cs) :
      Layout rest ('#' :: (body ++ cs))
  | block {body cs} (hb : ¬['*', '/'] <:+: body) (h : Layout rest cs) :
      Layout rest ('/' :: '*' :: (body ++ '*' :: '/' :: cs))

theorem Layout.append {rest cs ds : List Char} (h : Layout (ds ++ rest) cs)
    (h' : Layout rest ds) : Layout rest (cs ++ ds) := by
  induction h with
  | nil => exact h'
  | blank hc _ ih => exact .blank hc ih
  | line hb hn _ ih =>
    rw [List.cons_append, List.append_assoc]
    exact .line hb (by rwa [List.append_assoc]) ih
  | block hb _ ih =>
    rw [List.cons_append, List.cons_append, List.append_assoc, List.cons_append, List.cons_append]
    exact .block hb ih

/-! ## Tokens -/

/-- The characters between the quotes of a string, and what they say.  A quote and a backslash
    stand in an escape only. -/
inductive StringBody : List Char → List Char → Prop
  | nil : StringBody [] []
  | plain {c body content} (hq : c ≠ '"') (hb : c ≠ '\\') (h : StringBody body content) :
      StringBody (c :: body) (c :: content)
  | escape {letter c body content} (he : Scan.escaped? letter = some c)
      (h : StringBody body content) : StringBody ('\\' :: letter :: body) (c :: content)

/-- A token before `rest`, by its kind, what it says and how it is written.  No longer token
    begins in its place. -/
inductive LongestMatch (rest : List Char) : Kind → List Char → List Char → Prop
  | string {body content} (h : StringBody body content) :
      LongestMatch rest .string content ('"' :: (body ++ ['"']))
  | pair {c d k} (h : Kind.ofPair? c d = some k) : LongestMatch rest k [c, d] [c, d]
  | single {c k} (h : Kind.ofChar? c = some k)
      (hp : ∀ d, rest.head? = some d → Kind.ofPair? c d = none)
      (hs : c = '/' → rest.head? ≠ some '*') : LongestMatch rest k [c] [c]
  | number {cs} (h : Number.IsNumeral cs)
      (hn : ∀ d, rest.head? = some d → d.isDigit = false ∧ d ≠ '.') :
      LongestMatch rest .number cs cs
  | word {c cs} (hc : c.isAlpha = true) (hs : ∀ d ∈ cs, d.isAlphanum = true)
      (hn : ∀ d, rest.head? = some d → d.isAlphanum = false) :
      LongestMatch rest (Kind.ofWord (String.ofList (c :: cs))) (c :: cs) (c :: cs)

namespace Kind

/-! No table has the kind of a string or of the end of input. -/

theorem ofPair?_ne {c d : Char} {k : Kind} (h : ofPair? c d = some k) :
    k ≠ .string ∧ k ≠ .endOfInput := by
  have htable : ∀ p ∈ pairOperators, p.2 ≠ .string ∧ p.2 ≠ .endOfInput := by decide
  exact htable _ (mem_of_lookup h)

theorem ofChar?_ne {c : Char} {k : Kind} (h : ofChar? c = some k) :
    k ≠ .string ∧ k ≠ .endOfInput := by
  have htable : ∀ p ∈ singleOperators, p.2 ≠ .string ∧ p.2 ≠ .endOfInput := by decide
  exact htable _ (mem_of_lookup h)

theorem ofWord_ne (word : String) : ofWord word ≠ .string ∧ ofWord word ≠ .endOfInput := by
  have htable : ∀ p ∈ keywords, p.2 ≠ .string ∧ p.2 ≠ .endOfInput := by decide
  unfold ofWord
  cases h : keywords.lookup word with
  | none => simp
  | some k => exact htable _ (mem_of_lookup h)

end Kind

namespace LongestMatch

variable {rest content cs : List Char} {k : Kind}

theorem ne_endOfInput (h : LongestMatch rest k content cs) : k ≠ .endOfInput := by
  cases h with
  | string | number => simp
  | pair h => exact (Kind.ofPair?_ne h).2
  | single h => exact (Kind.ofChar?_ne h).2
  | word => exact (Kind.ofWord_ne _).2

theorem ne_nil (h : LongestMatch rest k content cs) : cs ≠ [] := by
  cases h with
  | string | pair | single | word => simp
  | number h => cases h with
    | whole _ hne => exact hne
    | point => simp

/-- Any token but a string says what is written. -/
theorem content_eq (h : LongestMatch rest k content cs) (hk : k ≠ .string) : content = cs := by
  cases h with
  | string => exact absurd rfl hk
  | pair | single | number | word => rfl

/-- A string is written between quotes. -/
theorem stringBody (h : LongestMatch rest k content cs) (hk : k = .string) :
    ∃ body, cs = '"' :: (body ++ ['"']) ∧ StringBody body content := by
  cases h with
  | @string body _ h => exact ⟨body, rfl, h⟩
  | pair h => exact absurd hk (Kind.ofPair?_ne h).1
  | single h => exact absurd hk (Kind.ofChar?_ne h).1
  | number => cases hk
  | word => exact absurd hk (Kind.ofWord_ne _).1

end LongestMatch

/-! ## One step -/

/-- The piece is layout, or a token that could not be longer. -/
def Piece.Sound (piece : Piece) : Prop :=
  match piece.found with
  | none => Layout piece.rest piece.taken
  | some (k, text) => LongestMatch piece.rest k text.toList piece.taken

namespace Scan

theorem plain_sound {k : Kind} {taken rest : List Char} (h : LongestMatch rest k taken taken) :
    (plain k taken rest).Sound := by
  show LongestMatch rest k (String.ofList taken).toList taken
  rwa [String.toList_ofList]

/-- The comment is closed by the first `*/`. -/
theorem closeComment?_first {cs inner rest : List Char}
    (h : closeComment? cs = some (inner, rest)) :
    ∃ body, inner = body ++ ['*', '/'] ∧ ¬['*', '/'] <:+: body := by
  fun_induction closeComment? cs generalizing inner rest with
  | case1 =>
    obtain ⟨rfl, rfl⟩ := Prod.mk.inj (Option.some.inj h)
    exact ⟨[], rfl, by simp⟩
  | case2 c cs hne ih =>
    obtain ⟨⟨inner', rest'⟩, hb, he⟩ := Option.map_eq_some_iff.1 h
    obtain ⟨rfl, rfl⟩ := Prod.mk.inj he
    obtain ⟨body, rfl, hbody⟩ := ih hb
    refine ⟨c :: body, rfl, fun hin => ?_⟩
    rcases List.infix_cons_iff.1 hin with hpre | hin
    · -- then the text itself begins with `*/`
      obtain ⟨more, hmore⟩ := hpre
      cases body with
      | nil => cases hmore
      | cons d body =>
        obtain ⟨rfl, hd⟩ := List.cons.inj hmore
        obtain ⟨rfl, -⟩ := List.cons.inj hd
        exact hne _ rfl (closeComment?_split hb).symm
    · exact hbody hin
  | case3 => cases h

theorem stringTail_body {start p : Position} {cs : List Char} {tail : StringTail}
    (h : stringTail start p cs = .ok tail) :
    ∃ body, tail.taken = body ++ ['"'] ∧ StringBody body tail.content := by
  fun_induction stringTail start p cs generalizing tail with
  | case1 => cases h
  | case2 => cases h; exact ⟨[], rfl, .nil⟩
  | case3 => cases h
  | case4 p letter rest c he ih =>
    obtain ⟨t, ht, rfl⟩ := map_eq_ok_iff.1 h
    obtain ⟨body, htaken, hbody⟩ := ih ht
    exact ⟨'\\' :: letter :: body, by simp [htaken], .escape he hbody⟩
  | case5 p c rest hquote hescape ih =>
    obtain ⟨t, ht, rfl⟩ := map_eq_ok_iff.1 h
    obtain ⟨body, htaken, hbody⟩ := ih ht
    refine ⟨c :: body, by simp [htaken], .plain (fun hc => hquote hc) (fun hc => ?_) hbody⟩
    -- a backslash at the very end is no escape, but then the string is not closed
    cases rest with
    | nil => cases ht
    | cons letter rest => exact hescape letter rest hc rfl

theorem stringPiece_sound {p : Position} {cs : List Char} {piece : Piece}
    (h : stringPiece p cs = .ok piece) : piece.Sound := by
  unfold stringPiece at h
  split at h
  · next tail ht =>
    cases h
    obtain ⟨body, htaken, hbody⟩ := stringTail_body ht
    show LongestMatch _ _ (String.ofList tail.content).toList ('"' :: tail.taken)
    rw [String.toList_ofList, htaken]
    exact .string hbody
  · cases h

theorem fractionPiece_sound {p : Position} {digits fraction rest : List Char} {piece : Piece}
    (hd : ∀ c ∈ digits, c.isDigit = true) (hf : ∀ c ∈ fraction, c.isDigit = true)
    (hn : ∀ d, rest.head? = some d → d.isDigit = false)
    (h : fractionPiece p digits fraction rest = .ok piece) : piece.Sound := by
  unfold fractionPiece at h
  split at h
  · cases h
  · next hpoint =>
    split at h
    · cases h
    · next hne =>
      cases h
      refine plain_sound (.number (.point hd hf ?_) fun d hd => ⟨hn d hd, ?_⟩)
      · by_cases hnil : digits = []
        · exact Or.inr (by simpa [hnil] using hne)
        · exact Or.inl hnil
      · rintro rfl
        obtain ⟨tail, rfl⟩ := List.head?_eq_some_iff.1 hd
        exact hpoint tail rfl

theorem numberPiece_sound {p : Position} {c : Char} {cs : List Char} {piece : Piece}
    (hc : (c.isDigit || c == '.') = true) (h : numberPiece p (c :: cs) = .ok piece) :
    piece.Sound := by
  have hne := (numberPiece_split hc h).2
  unfold numberPiece digitsPiece at h
  split at h
  · exact fractionPiece_sound (fun _ => mem_takeWhile) (fun _ => mem_takeWhile)
      (fun _ => head_dropWhile) h
  · next hpoint =>
    cases h
    refine plain_sound (.number (.whole (fun _ => mem_takeWhile) hne) fun d hd => ?_)
    refine ⟨head_dropWhile hd, ?_⟩
    rintro rfl
    obtain ⟨tail, htail⟩ := List.head?_eq_some_iff.1 hd
    exact hpoint tail htail

theorem wordPiece_sound {c : Char} {cs : List Char} (hc : c.isAlpha = true) :
    (wordPiece (c :: cs)).Sound := by
  have htake : (c :: cs).takeWhile Char.isAlphanum = c :: cs.takeWhile Char.isAlphanum := by
    simp [List.takeWhile, Char.isAlphanum, hc]
  unfold wordPiece
  simp only [htake]
  exact plain_sound (.word hc (fun _ => mem_takeWhile) fun _ => head_dropWhile)

theorem simplePiece_sound {p : Position} {c : Char} {cs : List Char} {piece : Piece}
    (hp : ∀ d, cs.head? = some d → Kind.ofPair? c d = none)
    (hs : c = '/' → cs.head? ≠ some '*') (h : simplePiece p c cs = .ok piece) : piece.Sound := by
  unfold simplePiece at h
  split at h
  · next hk =>
    cases h
    exact plain_sound (.single hk hp hs)
  · split at h
    · next hc => exact numberPiece_sound hc h
    · split at h
      · next hc =>
        cases h
        exact wordPiece_sound hc
      · split at h
        · next hb =>
          cases h
          exact Layout.blank hb .nil
        · cases h

/-- **A step takes off layout or a longest match.** -/
theorem scanStep_sound {p : Position} {c : Char} {cs : List Char} {piece : Piece}
    (h : scanStep p c cs = .ok piece) : piece.Sound := by
  unfold scanStep at h
  split at h
  · cases h
    show Layout _ ('#' :: _)
    rw [← List.append_nil (List.takeWhile _ _)]
    refine .line (fun d hd => by simpa using mem_takeWhile hd) (fun d hd => ?_) .nil
    simpa using head_dropWhile hd
  · split at h
    · next hclose =>
      cases h
      obtain ⟨body, rfl, hbody⟩ := closeComment?_first hclose
      exact .block hbody .nil
    · cases h
  · exact stringPiece_sound h
  · next hslash _ =>
    split at h
    · next hk =>
      cases h
      exact plain_sound (.pair hk)
    · next hk =>
      refine simplePiece_sound (fun d hd => ?_) (fun hc hd => ?_) h
      · rw [List.head?_cons, Option.some.injEq] at hd
        exact hd ▸ hk
      · rw [List.head?_cons, Option.some.injEq] at hd
        exact hslash hc hd
  · exact simplePiece_sound (by simp) (by simp) h

end Scan

/-! ## The whole text -/

/-- From the place `p` on, the text is layout, a token, layout, a token and so on, up to the end
    of input. -/
inductive Tokenized : Position → List Char → List Lexeme → Prop
  | done {p cs} (h : Layout [] cs) : Tokenized p cs [⟨.endOfInput, "", p.after cs, none⟩]
  | token {p gap cs rest k text lexemes} (hg : Layout (cs ++ rest) gap)
      (hm : LongestMatch rest k text.toList cs)
      (h : Tokenized (p.after (gap ++ cs)) rest lexemes) :
      Tokenized p (gap ++ (cs ++ rest))
        (⟨k, text, p.after gap, some (p.after (gap ++ cs))⟩ :: lexemes)

/-- Layout may come before the first layout. -/
theorem Tokenized.layout {p : Position} {cs rest : List Char} {lexemes : List Lexeme}
    (hl : Layout rest cs) (h : Tokenized (p.after cs) rest lexemes) :
    Tokenized p (cs ++ rest) lexemes := by
  cases h with
  | done h =>
    rw [← Position.after_append]
    rw [← List.append_nil rest] at hl
    exact .done (hl.append h)
  | token hg hm h =>
    rw [← Position.after_append, ← List.append_assoc] at h
    have htoken := Tokenized.token (hl.append hg) hm h
    simpa only [List.append_assoc, Position.after_append] using htoken

theorem scanFrom_tokenized {p : Position} {cs : List Char} {done lexemes : List Lexeme}
    (h : scanFrom p cs done = .ok lexemes) :
    ∃ found, lexemes = done.reverse ++ found ∧ Tokenized p cs found := by
  fun_induction scanFrom p cs done with
  | case1 p done =>
    cases h
    exact ⟨_, List.reverse_cons, .done .nil⟩
  | case2 => cases h
  | case3 p done c cs piece hstep ih =>
    obtain ⟨found, rfl, hfound⟩ := ih h
    have hsound := Scan.scanStep_sound hstep
    obtain ⟨hsplit, -⟩ := Scan.scanStep_split hstep
    rw [← hsplit]
    unfold Piece.Sound at hsound
    unfold Piece.lexeme?
    cases hf : piece.found with
    | none =>
      rw [hf] at hsound
      exact ⟨found, rfl, hfound.layout hsound⟩
    | some token =>
      rw [hf] at hsound
      have htoken := Tokenized.token .nil hsound hfound
      exact ⟨_, by simp, htoken⟩

/-! ## Places -/

theorem Position.after_offset (p : Position) (cs : List Char) :
    (p.after cs).offset = p.offset + cs.length := by
  induction cs generalizing p with
  | nil => rfl
  | cons c cs ih =>
    have hstep : (p.step c).offset = p.offset + 1 := by
      unfold Position.step
      split <;> rfl
    rw [Position.after_cons, ih, hstep, List.length_cons]
    omega

/-- The characters from one offset to another. -/
def between (cs : List Char) (first past : Nat) : List Char := (cs.take past).drop first

theorem between_append (before cs rest : List Char) :
    between (before ++ (cs ++ rest)) before.length (before.length + cs.length) = cs := by
  unfold between
  rw [← List.append_assoc, ← List.length_append, List.take_left, List.drop_left]

/-- The offset at which a lexeme ends; the end of input has no characters. -/
def Lexeme.past (l : Lexeme) : Nat := (l.stop.getD l.start).offset

/-- In the text `cs`, only layout stands between the offset `past` and the lexeme. -/
structure Lexeme.ComesAfter (cs : List Char) (past : Nat) (l : Lexeme) : Prop where
  le : past ≤ l.start.offset
  layout : Layout (cs.drop l.start.offset) (between cs past l.start.offset)

/-- The lexeme is a token that stands in the text `cs`, and no longer one begins in its place. -/
structure Lexeme.StandsIn (cs : List Char) (l : Lexeme) : Prop where
  notEnd : l.kind ≠ .endOfInput
  nonempty : l.start.offset < l.past
  longest : LongestMatch (cs.drop l.past) l.kind l.text.toList (between cs l.start.offset l.past)

/-- The offsets of the lexemes, if `before` comes before the text. -/
theorem Tokenized.offsets {p : Position} {cs : List Char} {lexemes : List Lexeme}
    (h : Tokenized p cs lexemes) {before : List Char} (hp : p.offset = before.length) :
    ∃ tokens last, lexemes = tokens ++ [last] ∧ last.kind = .endOfInput ∧
      last.start.offset = (before ++ cs).length ∧
      (∀ l ∈ tokens, l.StandsIn (before ++ cs)) ∧
      List.Forall₂ (Lexeme.ComesAfter (before ++ cs)) (p.offset :: tokens.map Lexeme.past)
        lexemes := by
  induction h generalizing before with
  | @done p cs h =>
    have hlast : (p.after cs).offset = before.length + cs.length := by
      rw [Position.after_offset, hp]
    refine ⟨[], _, rfl, rfl, by rw [List.length_append]; exact hlast, by simp, ?_⟩
    refine .cons ⟨by rw [hlast, hp]; omega, ?_⟩ .nil
    have hgap := between_append before cs []
    rw [List.append_nil] at hgap
    simp only [hlast, hp, hgap]
    rwa [← List.length_append, List.drop_length]
  | @token p gap cs rest k text lexemes hg hm h ih =>
    have hstart : (p.after gap).offset = (before ++ gap).length := by
      simp only [Position.after_offset, hp, List.length_append]
    have hpast : (p.after (gap ++ cs)).offset = (before ++ (gap ++ cs)).length := by
      simp only [Position.after_offset, hp, List.length_append]
    obtain ⟨tokens, last, rfl, hk, hend, htokens, hgaps⟩ := ih hpast
    -- the whole text, divided before and after the token
    have htext : before ++ (gap ++ (cs ++ rest)) = before ++ (gap ++ cs) ++ rest := by
      simp only [List.append_assoc]
    have htoken := between_append (before ++ gap) cs rest
    have hgap := between_append before gap (cs ++ rest)
    rw [← List.length_append, List.append_assoc, List.append_assoc] at htoken
    rw [← List.length_append] at hgap
    refine ⟨_ :: tokens, last, rfl, hk, by rw [htext]; exact hend, ?_, ?_⟩
    · intro l hl
      rcases List.mem_cons.1 hl with rfl | hl
      · refine ⟨hm.ne_endOfInput, ?_, ?_⟩
        · have hpos := List.length_pos_iff.2 hm.ne_nil
          simp only [Lexeme.past, Option.getD_some, hstart, hpast, List.length_append]
          omega
        · simp only [Lexeme.past, Option.getD_some, hstart, hpast, htoken]
          rwa [htext, List.drop_left]
      · rw [htext]
        exact htokens l hl
    · rw [List.map_cons]
      refine .cons ⟨?_, ?_⟩ (by rw [htext]; exact hgaps)
      · rw [hstart, hp, List.length_append]
        omega
      · simp only [hstart, hp, hgap]
        rwa [← List.append_assoc, List.drop_left]

/-- **No character is lost.**  If a text can be scanned, its lexemes are tokens and, as the last
    one, the end of input, which stands at the end of the text.  Each token is a longest match: it
    is written in the text from its start to its end, so that its end is after its start, and it
    says what is written, or if it is a string, what its escapes stand for.  Each lexeme starts
    at or after the end of the one before, and only layout stands between the two, as it does
    before the first. -/
theorem scan_lossless {source : String} {lexemes : List Lexeme} (h : scan source = .ok lexemes) :
    ∃ tokens last, lexemes = tokens ++ [last] ∧
      last.kind = .endOfInput ∧ last.start.offset = source.toList.length ∧
      (∀ l ∈ tokens, l.StandsIn source.toList ∧
        (l.kind ≠ .string → l.text.toList = between source.toList l.start.offset l.past) ∧
        (l.kind = .string → ∃ body, StringBody body l.text.toList ∧
          between source.toList l.start.offset l.past = '"' :: (body ++ ['"']))) ∧
      List.Forall₂ (Lexeme.ComesAfter source.toList) (0 :: tokens.map Lexeme.past) lexemes := by
  obtain ⟨found, rfl, hfound⟩ := scanFrom_tokenized h
  have hbefore : Position.start.offset = ([] : List Char).length := rfl
  obtain ⟨tokens, last, rfl, hk, hend, htokens, hgaps⟩ := hfound.offsets hbefore
  rw [List.nil_append] at hend htokens hgaps
  refine ⟨tokens, last, rfl, hk, hend, fun l hl => ?_, hgaps⟩
  have hl := htokens l hl
  refine ⟨hl, hl.longest.content_eq, fun hs => ?_⟩
  obtain ⟨body, hbody, hcontent⟩ := hl.longest.stringBody hs
  exact ⟨body, hcontent, hbody⟩

/-- A text whose tokens stand next to each other or to comments. -/
def crowded : String := "a<=\"\\n\"/***/.5/ #x"

/-- The string in the text. -/
def crowdedString : Lexeme := ⟨.string, "\n", ⟨3, 1, 4⟩, some ⟨7, 1, 8⟩⟩

/-- The lexemes of the text. -/
def crowdedLexemes : List Lexeme :=
  [⟨.identifier, "a", ⟨0, 1, 1⟩, some ⟨1, 1, 2⟩⟩,
   ⟨.lessThanOrEquals, "<=", ⟨1, 1, 2⟩, some ⟨3, 1, 4⟩⟩, crowdedString,
   ⟨.number, ".5", ⟨12, 1, 13⟩, some ⟨14, 1, 15⟩⟩, ⟨.divide, "/", ⟨14, 1, 15⟩, some ⟨15, 1, 16⟩⟩,
   ⟨.endOfInput, "", ⟨18, 1, 19⟩, none⟩]

/-- The string says a line feed, and stands between quotes as an escape. -/
theorem scan_lossless_crowded :
    scan crowded = .ok crowdedLexemes ∧ crowdedString.StandsIn crowded.toList ∧
      between crowded.toList 3 7 = ['"', '\\', 'n', '"'] ∧
      ∃ body, StringBody body crowdedString.text.toList ∧
        between crowded.toList 3 7 = '"' :: (body ++ ['"']) := by
  have hscan : scan crowded = .ok crowdedLexemes := by decide +kernel
  obtain ⟨tokens, last, hlexemes, hlast, -, htokens, -⟩ := scan_lossless hscan
  have hmem : crowdedString ∈ tokens := by
    have hmem : crowdedString ∈ tokens ++ [last] := hlexemes ▸ by simp [crowdedLexemes]
    rcases List.mem_append.1 hmem with hmem | hmem
    · exact hmem
    · rw [← List.mem_singleton.1 hmem] at hlast
      cases hlast
  obtain ⟨hstands, -, hbody⟩ := htokens _ hmem
  exact ⟨hscan, hstands, rfl, hbody rfl⟩

end BoxScript
