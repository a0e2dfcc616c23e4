/-
  Splitting a source text into tokens.

  `scanStep` looks at one place, in this order: a `#` comment up to the end of its line, a
  `/* */` comment, a string, an operator of two characters, an operator or mark of one, a
  number, a word, blanks.  It takes a non-empty piece off the text (`scanStep_split`) and
  finds a token in it or none.  `scan` repeats it up to the end of the text or to the first
  malformed lexeme.
-/
import BoxScript.Result
import BoxScript.Token.Basic
import BoxScript.Token.Error
import BoxScript.Text.Blank

namespace BoxScript

/-- A piece that was taken off a text: the token in it, unless it is layout, the characters
    of the piece and those that follow. -/
structure Piece where
  found : Option (Kind × String)
  taken : List Char
  rest : List Char
  deriving DecidableEq, Repr

namespace Scan

/-- A piece of layout. -/
def layout (taken rest : List Char) : Piece := ⟨none, taken, rest⟩

/-- A piece that is a token spelled as it is written. -/
def plain (kind : Kind) (taken rest : List Char) : Piece :=
  ⟨some (kind, String.ofList taken), taken, rest⟩

/-- Splits a text after the first `*/`. -/
def closeComment? : List Char → Option (List Char × List Char)
  | '*' :: '/' :: rest => some (['*', '/'], rest)
  | c :: cs => (closeComment? cs).map fun (body, rest) => (c :: body, rest)
  | [] => none

/-- The character that a letter after a backslash stands for. -/
def escaped? : Char → Option Char
  | 'n' => some '\n'
  | 't' => some '\t'
  | '"' => some '"'
  | '\\' => some '\\'
  | _ => none

/-- A string after its opening quote: what it says, the characters up to and with the
    closing quote, and the rest. -/
structure StringTail where
  content : List Char
  taken : List Char
  rest : List Char
  deriving DecidableEq, Repr

/-- Reads a string from after its opening quote, which stands at `start`, up to its closing
    quote; `p` is the place that has been reached. -/
def stringTail (start : Position) : Position → List Char → Except LexError StringTail
  | _, [] => .error ⟨.unterminatedString, start⟩
  | _, '"' :: rest => .ok ⟨[], ['"'], rest⟩
  | p, '\\' :: letter :: rest =>
    match escaped? letter with
    | none => .error ⟨.invalidEscape letter, p⟩
    | some c =>
      (stringTail start ((p.step '\\').step letter) rest).map fun tail =>
        ⟨c :: tail.content, '\\' :: letter :: tail.taken, tail.rest⟩
  | p, c :: rest =>
    (stringTail start (p.step c) rest).map fun tail =>
      ⟨c :: tail.content, c :: tail.taken, tail.rest⟩

/-- A string that begins at the place `p`; `cs` follows the opening quote. -/
def stringPiece (p : Position) (cs : List Char) : Except LexError Piece :=
  match stringTail p (p.step '"') cs with
  | .ok tail => .ok ⟨some (.string, String.ofList tail.content), '"' :: tail.taken, tail.rest⟩
  | .error e => .error e

/-- A number with a point: `digits` and `fraction` stand before and after it. -/
def fractionPiece (p : Position) (digits fraction rest : List Char) : Except LexError Piece :=
  match rest with
  | '.' :: _ => .error ⟨.secondPoint, p.after (digits ++ '.' :: fraction)⟩
  | rest =>
    if digits.isEmpty && fraction.isEmpty then .error ⟨.lonePoint, p⟩
    else .ok (plain .number (digits ++ '.' :: fraction) rest)

/-- A number that begins with `digits`; `cs` follows them. -/
def digitsPiece (p : Position) (digits cs : List Char) : Except LexError Piece :=
  match cs with
  | '.' :: after =>
    fractionPiece p digits (after.takeWhile Char.isDigit) (after.dropWhile Char.isDigit)
  | rest => .ok (plain .number digits rest)

/-- A number: digits with at most one point among or beside them. -/
def numberPiece (p : Position) (cs : List Char) : Except LexError Piece :=
  digitsPiece p (cs.takeWhile Char.isDigit) (cs.dropWhile Char.isDigit)

/-- A word: a letter, then letters and digits, all of ASCII. -/
def wordPiece (cs : List Char) : Piece :=
  let word := cs.takeWhile Char.isAlphanum
  plain (Kind.ofWord (String.ofList word)) word (cs.dropWhile Char.isAlphanum)

/-- The piece at the place `p`, where an operator, a number, a word or a blank begins with
    `c`; `cs` follows. -/
def simplePiece (p : Position) (c : Char) (cs : List Char) : Except LexError Piece :=
  match Kind.ofChar? c with
  | some kind => .ok (plain kind [c] cs)
  | none =>
    if c.isDigit || c == '.' then numberPiece p (c :: cs)
    else if c.isAlpha then .ok (wordPiece (c :: cs))
    else if Text.isBlank c then .ok (layout [c] cs)
    else .error ⟨.unexpectedCharacter c, p⟩

/-- The piece at the place `p`, where the text is `c` and then `cs`. -/
def scanStep (p : Position) (c : Char) (cs : List Char) : Except LexError Piece :=
  match c, cs with
  | '#', cs => .ok (layout ('#' :: cs.takeWhile (· != '\n')) (cs.dropWhile (· != '\n')))
  | '/', '*' :: body =>
    match closeComment? body with
    | some (inner, rest) => .ok (layout ('/' :: '*' :: inner) rest)
    | none => .error ⟨.unterminatedComment, p⟩
  | '"', cs => stringPiece p cs
  | c, d :: more =>
    match Kind.ofPair? c d with
    | some kind => .ok (plain kind [c, d] more)
    | none => simplePiece p c (d :: more)
  | c, [] => simplePiece p c []

/-! ## Nothing is lost -/

theorem closeComment?_split {cs body rest : List Char}
    (h : closeComment? cs = some (body, rest)) : body ++ rest = cs := by
  fun_induction closeComment? cs generalizing body rest with
  | case1 =>
    obtain ⟨rfl, rfl⟩ := Prod.mk.inj (Option.some.inj h)
    rfl
  | case2 c cs _ ih =>
    obtain ⟨⟨b, r⟩, hb, he⟩ := Option.map_eq_some_iff.1 h
    obtain ⟨rfl, rfl⟩ := Prod.mk.inj he
    simp [ih hb]
  | case3 => simp at h

theorem stringTail_split {start p : Position} {cs : List Char} {tail : StringTail}
    (h : stringTail start p cs = .ok tail) : tail.taken ++ tail.rest = cs := by
  fun_induction stringTail start p cs generalizing tail with
  | case1 => cases h
  | case2 => cases h; rfl
  | case3 => cases h
  | case4 p letter rest c _ ih =>
    obtain ⟨t, ht, rfl⟩ := map_eq_ok_iff.1 h
    simp [ih ht]
  | case5 p c rest _ _ ih =>
    obtain ⟨t, ht, rfl⟩ := map_eq_ok_iff.1 h
    simp [ih ht]

theorem stringPiece_split {p : Position} {cs : List Char} {piece : Piece}
    (h : stringPiece p cs = .ok piece) :
    piece.taken ++ piece.rest = '"' :: cs ∧ piece.taken ≠ [] := by
  unfold stringPiece at h
  split at h
  · next tail ht =>
    cases h
    simp [stringTail_split ht]
  · cases h

theorem fractionPiece_split {p : Position} {digits fraction rest : List Char} {piece : Piece}
    (h : fractionPiece p digits fraction rest = .ok piece) :
    piece.taken = digits ++ '.' :: fraction ∧ piece.rest = rest := by
  unfold fractionPiece at h
  split at h
  · cases h
  · split at h
    · cases h
    · cases h
      exact ⟨rfl, rfl⟩

theorem digitsPiece_split {p : Position} {digits cs : List Char} {piece : Piece}
    (h : digitsPiece p digits cs = .ok piece) :
    piece.taken ++ piece.rest = digits ++ cs ∧
      (piece.taken = [] → digits = [] ∧ cs.head? ≠ some '.') := by
  unfold digitsPiece at h
  split at h
  · obtain ⟨ht, hr⟩ := fractionPiece_split h
    simp [ht, hr, List.takeWhile_append_dropWhile]
  · next rest hne =>
    cases h
    refine ⟨rfl, fun hd => ⟨hd, fun hp => ?_⟩⟩
    obtain ⟨tail, rfl⟩ := List.head?_eq_some_iff.1 hp
    exact hne tail rfl

theorem numberPiece_split {p : Position} {c : Char} {cs : List Char} {piece : Piece}
    (hc : c.isDigit || c == '.') (h : numberPiece p (c :: cs) = .ok piece) :
    piece.taken ++ piece.rest = c :: cs ∧ piece.taken ≠ [] := by
  obtain ⟨hs, hne⟩ := digitsPiece_split h
  rw [List.takeWhile_append_dropWhile] at hs
  refine ⟨hs, fun hnil => ?_⟩
  obtain ⟨hd, hp⟩ := hne hnil
  by_cases hdigit : c.isDigit
  · simp [List.takeWhile, hdigit] at hd
  · have : c = '.' := by simpa [hdigit] using hc
    subst this
    exact hp rfl

theorem simplePiece_split {p : Position} {c : Char} {cs : List Char} {piece : Piece}
    (h : simplePiece p c cs = .ok piece) :
    piece.taken ++ piece.rest = c :: cs ∧ piece.taken ≠ [] := by
  unfold simplePiece at h
  split at h
  · cases h
    simp [plain]
  · split at h
    · next hc => exact numberPiece_split hc h
    · split at h
      · next ha =>
        cases h
        refine ⟨?_, ?_⟩
        · exact List.takeWhile_append_dropWhile
        · simp [wordPiece, plain, List.takeWhile, Char.isAlphanum, ha]
      · split at h
        · cases h
          simp [layout]
        · cases h

/-- **A step takes a non-empty piece off the text and leaves the rest as it was.** -/
theorem scanStep_split {p : Position} {c : Char} {cs : List Char} {piece : Piece}
    (h : scanStep p c cs = .ok piece) :
    piece.taken ++ piece.rest = c :: cs ∧ piece.taken ≠ [] := by
  unfold scanStep at h
  split at h
  · cases h
    simp [layout, List.takeWhile_append_dropWhile]
  · split at h
    · next hb =>
      cases h
      simp [layout, closeComment?_split hb]
    · cases h
  · exact stringPiece_split h
  · split at h
    · cases h
      simp [plain]
    · exact simplePiece_split h
  · exact simplePiece_split h

theorem scanStep_rest_length_lt {p : Position} {c : Char} {cs : List Char} {piece : Piece}
    (h : scanStep p c cs = .ok piece) : piece.rest.length < (c :: cs).length := by
  obtain ⟨hs, hne⟩ := scanStep_split h
  have := congrArg List.length hs
  have := List.length_pos_iff.2 hne
  simp only [List.length_append] at *
  omega

end Scan

/-! ## The whole text -/

/-- The token of a piece that begins at `p`, with the places of its ends. -/
def Piece.lexeme? (piece : Piece) (p : Position) : Option Lexeme :=
  piece.found.map fun (kind, text) => ⟨kind, text, p, some (p.after piece.taken)⟩

open Scan in
/-- Splits the text `cs`, which begins at the place `p`; `done` holds the tokens found so
    far, the last one first. -/
def scanFrom (p : Position) (cs : List Char) (done : List Lexeme) :
    Except LexError (List Lexeme) :=
  match cs with
  | [] => .ok (⟨.endOfInput, "", p, none⟩ :: done).reverse
  | c :: cs =>
    match _h : scanStep p c cs with
    | .error e => .error e
    | .ok piece =>
      scanFrom (p.after piece.taken) piece.rest ((piece.lexeme? p).toList ++ done)
termination_by cs.length
decreasing_by exact scanStep_rest_length_lt _h

/-- The tokens of a source text, closed by the end of input. -/
def scan (source : String) : Except LexError (List Lexeme) :=
  scanFrom .start source.toList []

end BoxScript
