/-
  Printing tokens, and scanning what was printed.

  * `Lexable token`: the token, a kind and what it says, can stand in a text;
  * `Prints token cs`: the characters `cs` are the token in writing.  A string stands between
    quotes, with escapes where they are needed, and any other token as it is;
  * `Gap cs`: the characters `cs` are blanks and comments, whatever follows them;
  * `LaidOut tokens cs`: the text `cs` is the tokens in writing with gaps around them, and no two
    tokens touch each other;
  * `scan_printed`: **scanning undoes printing**, whatever the gaps, and the tokens of a text are
    found again if they are printed with single spaces.
-/
import BoxScript.Proofs.Token.Division

namespace BoxScript

/-! ## Tokens in writing -/

/-- The tokens that can stand in a text, by their kind and what they say. -/
inductive Lexable : Kind × String → Prop
  | string (text : String) : Lexable (.string, text)
  | number {text} (h : Number.IsNumeral text.toList) : Lexable (.number, text)
  | word {c cs} (hc : c.isAlpha = true) (hs : ∀ d ∈ cs, d.isAlphanum = true) :
      Lexable (Kind.ofWord (String.ofList (c :: cs)), String.ofList (c :: cs))
  | pair {c d k} (h : Kind.ofPair? c d = some k) : Lexable (k, String.ofList [c, d])
  | single {c k} (h : Kind.ofChar? c = some k) : Lexable (k, String.ofList [c])

/-- How a character may be written in a string: as an escape, if there is one for it, and as it is,
    unless it is a quote or a backslash. -/
inductive WrittenAs : Char → List Char → Prop
  | quote : WrittenAs '"' ['\\', '"']
  | backslash : WrittenAs '\\' ['\\', '\\']
  | newline : WrittenAs '\n' ['\\', 'n']
  | tab : WrittenAs '\t' ['\\', 't']
  | plain {c} (hq : c ≠ '"') (hb : c ≠ '\\') : WrittenAs c [c]

/-- How a token may be written. -/
inductive Prints : Kind × String → List Char → Prop
  | string {text pieces} (h : List.Forall₂ WrittenAs text.toList pieces) :
      Prints (.string, text) ('"' :: (pieces.flatten ++ ['"']))
  | plain {k text} (h : k ≠ .string) : Prints (k, text) text.toList

/-- Blanks, block comments and line comments that end with their line. -/
inductive Gap : List Char → Prop
  | nil : Gap []
  | blank {c cs} (hc : Text.isBlank c = true) (h : Gap cs) : Gap (c :: cs)
  | line {body cs} (hb : ∀ c ∈ body, c ≠ '\n') (h : Gap cs) : Gap ('#' :: (body ++ '\n' :: cs))
  | block {body cs} (hb : ¬['*', '/'] <:+: body) (h : Gap cs) :
      Gap ('/' :: '*' :: (body ++ '*' :: '/' :: cs))

/-- The tokens in writing, each one after a gap that is not empty, and a last gap. -/
inductive Spaced : List (Kind × String) → List Char → Prop
  | done {gap} (hg : Gap gap) : Spaced [] gap
  | token {gap token cs tokens rest} (hg : Gap gap) (hne : gap ≠ []) (hp : Prints token cs)
      (h : Spaced tokens rest) : Spaced (token :: tokens) (gap ++ (cs ++ rest))

/-- The tokens in writing, with a gap before the first and after the last, and one that is not
    empty between two. -/
inductive LaidOut : List (Kind × String) → List Char → Prop
  | empty {gap} (hg : Gap gap) : LaidOut [] gap
  | tokens {gap token cs tokens rest} (hg : Gap gap) (hp : Prints token cs)
      (h : Spaced tokens rest) : LaidOut (token :: tokens) (gap ++ (cs ++ rest))

/-! ## Gaps -/

theorem Gap.layout {cs : List Char} (h : Gap cs) (rest : List Char) : Layout rest cs := by
  induction h with
  | nil => exact .nil
  | blank hc _ ih => exact .blank hc ih
  | line hb _ ih => exact .line hb (by simp) (.blank (by decide) ih)
  | block hb _ ih => exact .block hb ih

/-- The first characters of a gap. -/
def OpensGap (d : Char) : Prop := Text.isBlank d = true ∨ d = '#' ∨ d = '/'

instance : DecidablePred OpensGap := fun d =>
  inferInstanceAs (Decidable (Text.isBlank d = true ∨ d = '#' ∨ d = '/'))

theorem Gap.opens {cs : List Char} (h : Gap cs) {d : Char} (hd : cs.head? = some d) :
    OpensGap d := by
  cases h with
  | nil => cases hd
  | blank hc => cases hd; exact Or.inl hc
  | line => cases hd; exact Or.inr (Or.inl rfl)
  | block => cases hd; exact Or.inr (Or.inr rfl)

/-- What follows a token in writing is a gap or nothing. -/
theorem Spaced.opens {tokens : List (Kind × String)} {cs : List Char} (h : Spaced tokens cs)
    {d : Char} (hd : cs.head? = some d) : OpensGap d := by
  cases h with
  | done hg => exact hg.opens hd
  | token hg hne =>
    rw [List.head?_append_of_ne_nil _ hne] at hd
    exact hg.opens hd

/-- No token goes on with the first character of a gap. -/
theorem OpensGap.ends {d : Char} (h : OpensGap d) :
    d.isAlphanum = false ∧ d ≠ '.' ∧ d ≠ '*' ∧ ∀ c, Kind.ofPair? c d = none := by
  refine ⟨?_, ?_, ?_, fun c => ?_⟩
  · rcases h with h | rfl | rfl
    · exact Scan.isAlphanum_of_isBlank h
    · decide
    · decide
  · rintro rfl
    exact absurd h (by decide)
  · rintro rfl
    exact absurd h (by decide)
  · cases hk : Kind.ofPair? c d with
    | none => rfl
    | some k =>
      have htable : ∀ p ∈ Kind.pairOperators, p.1.2 = '=' := by decide
      have hd : d = '=' := htable _ (Kind.mem_of_lookup hk)
      subst hd
      exact absurd h (by decide)

/-! ## Longest matches -/

theorem stringBody_of_writtenAs {content : List Char} {pieces : List (List Char)}
    (h : List.Forall₂ WrittenAs content pieces) : StringBody pieces.flatten content := by
  induction h with
  | nil => exact .nil
  | cons hc _ ih =>
    rw [List.flatten_cons]
    cases hc with
    | quote | backslash | newline | tab => exact .escape rfl ih
    | plain hq hb => exact .plain hq hb ih

/-- **A token in writing is a longest match**, if a gap follows it or nothing. -/
theorem Lexable.longestMatch {token : Kind × String} {cs rest : List Char} (h : Lexable token)
    (hp : Prints token cs) (hr : ∀ d, rest.head? = some d → OpensGap d) :
    LongestMatch rest token.1 token.2.toList cs := by
  cases hp with
  | string hw => exact .string (stringBody_of_writtenAs hw)
  | plain hk =>
    cases h with
    | string => exact absurd rfl hk
    | number h =>
      refine .number h fun d hd => ?_
      obtain ⟨halnum, hpoint, -⟩ := (hr d hd).ends
      simp only [Char.isAlphanum, Bool.or_eq_false_iff] at halnum
      exact ⟨halnum.2, hpoint⟩
    | word hc hs =>
      simp only [String.toList_ofList]
      exact .word hc hs fun d hd => (hr d hd).ends.1
    | pair h =>
      simp only [String.toList_ofList]
      exact .pair h
    | single h =>
      simp only [String.toList_ofList]
      exact .single h (fun d hd => (hr d hd).ends.2.2.2 _) fun _ hd => (hr _ hd).ends.2.2.1 rfl

/-- A longest match can stand in a text. -/
theorem LongestMatch.lexable {k : Kind} {text : String} {cs rest : List Char}
    (h : LongestMatch rest k text.toList cs) : Lexable (k, text) := by
  rw [← String.ofList_toList (s := text)]
  generalize text.toList = content at h
  cases h with
  | string => exact .string _
  | pair h => exact .pair h
  | single h => exact .single h
  | number h => exact .number (by rwa [String.toList_ofList])
  | word hc hs => exact .word hc hs

/-! ## Scanning what was printed -/

/-- The kind of a lexeme and what it says. -/
def Lexeme.said (l : Lexeme) : Kind × String := (l.kind, l.text)

/-- A token that is printed before a gap comes first in the division. -/
theorem Spaced.divided_token {token : Kind × String} {tokens : List (Kind × String)}
    {gap cs rest : List Char} {p : Position} {found : List Lexeme} (h : Spaced tokens rest)
    (hl : Lexable token) (hg : Gap gap) (hp : Prints token cs)
    (hd : Divided [] (p.after (gap ++ cs)) rest found) :
    ∃ first : Lexeme, first.said = token ∧ Divided [] p (gap ++ (cs ++ rest)) (first :: found) := by
  have hm := hl.longestMatch hp fun d hd => h.opens hd
  rw [← List.append_nil rest] at hm
  exact ⟨_, rfl, .token (hg.layout _) hm hd⟩

theorem Spaced.divided {tokens : List (Kind × String)} {cs : List Char} (h : Spaced tokens cs)
    (hl : ∀ token ∈ tokens, Lexable token) (p : Position) :
    ∃ found, Divided [] p cs found ∧ found.map Lexeme.said = tokens := by
  induction h generalizing p with
  | done hg => exact ⟨[], .done (hg.layout []), rfl⟩
  | token hg _ hp h ih =>
    obtain ⟨htoken, htokens⟩ := List.forall_mem_cons.1 hl
    obtain ⟨found, hd, rfl⟩ := ih htokens (p.after (_ ++ _))
    obtain ⟨first, rfl, hfirst⟩ := h.divided_token htoken hg hp hd
    exact ⟨first :: found, hfirst, rfl⟩

/-- The text is divided into the tokens that were printed. -/
theorem LaidOut.divided {tokens : List (Kind × String)} {cs : List Char} (h : LaidOut tokens cs)
    (hl : ∀ token ∈ tokens, Lexable token) (p : Position) :
    ∃ found, Divided [] p cs found ∧ found.map Lexeme.said = tokens := by
  cases h with
  | empty hg => exact ⟨[], .done (hg.layout []), rfl⟩
  | tokens hg hp h =>
    obtain ⟨htoken, htokens⟩ := List.forall_mem_cons.1 hl
    obtain ⟨found, hd, rfl⟩ := h.divided htokens (p.after (_ ++ _))
    obtain ⟨first, rfl, hfirst⟩ := h.divided_token htoken hg hp hd
    exact ⟨first :: found, hfirst, rfl⟩

theorem LaidOut.scan_eq {tokens : List (Kind × String)} {source : String}
    (h : LaidOut tokens source.toList) (hl : ∀ token ∈ tokens, Lexable token) :
    ∃ lexemes, scan source = .ok lexemes ∧
      lexemes.map Lexeme.said = tokens ++ [(.endOfInput, "")] := by
  obtain ⟨found, hd, rfl⟩ := h.divided hl .start
  refine ⟨_, scan_eq_ok_iff.2 ⟨found, hd, rfl⟩, ?_⟩
  rw [List.map_append]
  rfl

/-! ## Single spaces -/

theorem exists_writtenAs (c : Char) : ∃ piece, WrittenAs c piece := by
  by_cases hq : c = '"'
  · subst hq
    exact ⟨_, .quote⟩
  · by_cases hb : c = '\\'
    · subst hb
      exact ⟨_, .backslash⟩
    · exact ⟨_, .plain hq hb⟩

theorem exists_prints (token : Kind × String) : ∃ cs, Prints token cs := by
  obtain ⟨k, text⟩ := token
  by_cases hk : k = .string
  · subst hk
    have hwritten : ∀ c ∈ text.toList, ∃ piece, WrittenAs c piece := fun c _ => exists_writtenAs c
    obtain ⟨pieces, hpieces⟩ := exists_forall₂_iff.2 hwritten
    exact ⟨_, .string hpieces⟩
  · exact ⟨_, .plain hk⟩

/-- Behind the first token, each one stands after a space. -/
theorem spaced_singles {tokens : List (Kind × String)} {written : List (List Char)}
    (h : List.Forall₂ Prints tokens written) (cs : List Char) :
    ∃ rest, [' '].intercalate (cs :: written) = cs ++ rest ∧ Spaced tokens rest := by
  induction h generalizing cs with
  | nil => exact ⟨[], by simp, .done .nil⟩
  | @cons token ds tokens written hp _ ih =>
    obtain ⟨rest, heq, hrest⟩ := ih ds
    have hspace : Gap [' '] := .blank (by decide) .nil
    refine ⟨[' '] ++ (ds ++ rest), ?_, .token hspace (by simp) hp hrest⟩
    rw [List.intercalate_cons_cons, heq, List.append_assoc]

theorem laidOut_singles {tokens : List (Kind × String)} {written : List (List Char)}
    (h : List.Forall₂ Prints tokens written) : LaidOut tokens ([' '].intercalate written) := by
  cases h with
  | nil => exact .empty .nil
  | @cons _ cs _ _ hp h =>
    obtain ⟨rest, heq, hrest⟩ := spaced_singles h cs
    rw [heq]
    exact .tokens .nil hp hrest

/-- The tokens of a division can stand in a text. -/
theorem Divided.lexable {rest cs : List Char} {p : Position} {tokens : List Lexeme}
    (h : Divided rest p cs tokens) : ∀ token ∈ tokens.map Lexeme.said, Lexable token := by
  induction h with
  | done => simp
  | token _ hm _ ih => exact List.forall_mem_cons.2 ⟨hm.lexable, ih⟩

/-- **Scanning undoes printing.**  If tokens are printed with gaps between them, the text can be
    scanned, and its lexemes are these tokens and the end of input.  So the tokens of any text that
    can be scanned are found again when they are printed, in any of the ways there are to write
    them, with single spaces. -/
theorem scan_printed :
    (∀ (tokens : List (Kind × String)) (source : String), (∀ token ∈ tokens, Lexable token) →
      LaidOut tokens source.toList →
      ∃ lexemes, scan source = .ok lexemes ∧
        lexemes.map Lexeme.said = tokens ++ [(.endOfInput, "")]) ∧
    ∀ (source : String) (lexemes : List Lexeme), scan source = .ok lexemes →
      ∃ tokens, lexemes.map Lexeme.said = tokens ++ [(.endOfInput, "")] ∧
        (∀ token ∈ tokens, Lexable token) ∧ (∃ written, List.Forall₂ Prints tokens written) ∧
        ∀ written, List.Forall₂ Prints tokens written →
          ∃ again, scan (String.ofList ([' '].intercalate written)) = .ok again ∧
            again.map Lexeme.said = lexemes.map Lexeme.said := by
  refine ⟨fun tokens source hl h => h.scan_eq hl, fun source lexemes h => ?_⟩
  obtain ⟨found, hd, rfl⟩ := scan_eq_ok_iff.1 h
  have hsaid : (found ++ [Lexeme.endAt (Position.start.after source.toList)]).map Lexeme.said =
      found.map Lexeme.said ++ [(.endOfInput, "")] := List.map_append
  have hprints : ∀ token ∈ found.map Lexeme.said, ∃ cs, Prints token cs := fun token _ =>
    exists_prints token
  refine ⟨_, hsaid, hd.lexable, exists_forall₂_iff.2 hprints, fun written hw => ?_⟩
  have hlaid := laidOut_singles hw
  rw [← String.toList_ofList (l := [' '].intercalate written)] at hlaid
  rw [hsaid]
  exact hlaid.scan_eq hd.lexable

/-- A name, a slash, a string and a number. -/
def spokenTokens : List (Kind × String) :=
  [(.identifier, "a"), (.divide, "/"), (.string, "\"\n\\"), (.number, ".5")]

/-- The tokens in writing: the slash stands between two comments. -/
def spokenText : String := "#x\na/***///*\"*/\"\\\"\n\\\\\" .5"

theorem spokenTokens_lexable : ∀ token ∈ spokenTokens, Lexable token := by
  simp only [spokenTokens, List.mem_cons, List.not_mem_nil, or_false]
  rintro _ (rfl | rfl | rfl | rfl)
  · exact @Lexable.word 'a' [] (by decide) (by simp)
  · exact @Lexable.single '/' _ (by decide)
  · exact .string _
  · exact .number (@Number.IsNumeral.point [] ['5'] (by simp) (by simp) (by simp))

theorem spokenText_laidOut : LaidOut spokenTokens spokenText.toList := by
  have hpieces : List.Forall₂ WrittenAs "\"\n\\".toList [['\\', '"'], ['\n'], ['\\', '\\']] := by
    show List.Forall₂ _ ['"', '\n', '\\'] _
    exact .cons .quote (.cons (.plain (by decide) (by decide)) (.cons .backslash .nil))
  have hnumber : Spaced [(.number, ".5")] ([' '] ++ (['.', '5'] ++ [])) :=
    .token (.blank (by decide) .nil) (by simp) (.plain (by decide)) (.done .nil)
  show LaidOut _ (['#', 'x', '\n'] ++ (['a'] ++ (['/', '*', '*', '*', '/'] ++ (['/'] ++
    (['/', '*', '"', '*', '/'] ++ (['"', '\\', '"', '\n', '\\', '\\', '"'] ++
    ([' '] ++ (['.', '5'] ++ []))))))))
  refine .tokens ?_ (.plain (by decide)) (.token ?_ (by simp) (.plain (by decide))
    (.token ?_ (by simp) (.string hpieces) hnumber))
  · exact @Gap.line ['x'] [] (by simp) .nil
  · exact @Gap.block ['*'] [] (by decide) .nil
  · exact @Gap.block ['"'] [] (by decide) .nil

/-- The slash between the comments and the quote in one of them are told apart. -/
theorem scan_printed_spoken :
    (∀ token ∈ spokenTokens, Lexable token) ∧ LaidOut spokenTokens spokenText.toList ∧
      (∃ lexemes, scan spokenText = .ok lexemes ∧
        lexemes.map Lexeme.said = spokenTokens ++ [(.endOfInput, "")]) ∧
      scan crowded = .ok crowdedLexemes ∧
      ∃ tokens, crowdedLexemes.map Lexeme.said = tokens ++ [(.endOfInput, "")] ∧
        ∀ written, List.Forall₂ Prints tokens written →
          ∃ again, scan (String.ofList ([' '].intercalate written)) = .ok again ∧
            again.map Lexeme.said = crowdedLexemes.map Lexeme.said := by
  have hscan : scan crowded = .ok crowdedLexemes := by decide +kernel
  obtain ⟨tokens, htokens, -, -, hagain⟩ := scan_printed.2 _ _ hscan
  exact ⟨spokenTokens_lexable, spokenText_laidOut,
    scan_printed.1 _ _ spokenTokens_lexable spokenText_laidOut, hscan, tokens, htokens, hagain⟩

end BoxScript
