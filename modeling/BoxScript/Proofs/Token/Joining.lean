/-
  Texts that are joined by a line feed.

  Behind a text and a line feed the scanner begins anew: it has kept nothing of the text but the
  place that it has reached.  So another text is scanned there as it is by itself, only that its
  lines come later.

  * `Position.moved`, `Lexeme.moved` and `LexError.moved`: the same further down in a longer text;
  * `scanFrom_moved`: the scanner does the same from a place further down;
  * `Divided.beforeLine`: a text that was scanned up to its end is divided in the same way before a
    new line;
  * `scan_joined`: **scanning is a homomorphism** from texts that are joined by a line feed.
-/
import BoxScript.Proofs.Token.Places

namespace BoxScript

/-! ## Further down -/

/-- The place `chars` characters later and `lines` lines further down, in the same column. -/
def Position.moved (chars lines : Nat) (p : Position) : Position :=
  ⟨p.offset + chars, p.line + lines, p.column⟩

/-- The lexeme with both of its ends further down. -/
def Lexeme.moved (chars lines : Nat) (l : Lexeme) : Lexeme :=
  { l with start := l.start.moved chars lines, stop := l.stop.map (Position.moved chars lines) }

/-- The error at a place further down. -/
def LexError.moved (chars lines : Nat) (e : LexError) : LexError :=
  { e with place := e.place.moved chars lines }

section

variable {chars lines : Nat}

theorem Position.moved_step (p : Position) (c : Char) :
    (p.step c).moved chars lines = (p.moved chars lines).step c := by
  unfold Position.step
  split
  · simp only [Position.moved, Position.mk.injEq, and_true]
    omega
  · simp only [Position.moved, Position.mk.injEq, and_true]
    omega

theorem Position.moved_after (p : Position) (cs : List Char) :
    (p.after cs).moved chars lines = (p.moved chars lines).after cs := by
  induction cs generalizing p with
  | nil => rfl
  | cons c cs ih => rw [Position.after_cons, ih, Position.moved_step, Position.after_cons]

/-! ## One step

A step looks at the place only if it fails. -/

namespace Scan

theorem map_mapError {ε ε' α β : Type} (f : α → β) (g : ε → ε') (x : Except ε α) :
    (x.mapError g).map f = (x.map f).mapError g := by
  cases x <;> rfl

theorem stringTail_moved (start p : Position) (cs : List Char) :
    stringTail (start.moved chars lines) (p.moved chars lines) cs =
      (stringTail start p cs).mapError (LexError.moved chars lines) := by
  fun_induction stringTail start p cs with
  | case1 => rfl
  | case2 => rfl
  | case3 p letter rest he => simp only [stringTail, he]; rfl
  | case4 p letter rest c he ih =>
    simp only [stringTail, he]
    rw [← Position.moved_step, ← Position.moved_step, ih, map_mapError]
  | case5 p c rest hquote hescape ih =>
    rw [stringTail, ← Position.moved_step, ih, map_mapError]
    · exact hquote
    · exact hescape

theorem stringPiece_moved (p : Position) (cs : List Char) :
    stringPiece (p.moved chars lines) cs =
      (stringPiece p cs).mapError (LexError.moved chars lines) := by
  unfold stringPiece
  rw [← Position.moved_step, stringTail_moved]
  cases stringTail p (p.step '"') cs <;> rfl

theorem numberPiece_moved (p : Position) (cs : List Char) :
    numberPiece (p.moved chars lines) cs =
      (numberPiece p cs).mapError (LexError.moved chars lines) := by
  unfold numberPiece digitsPiece
  split
  · unfold fractionPiece
    split
    · rw [← Position.moved_after]
      rfl
    · split <;> rfl
  · rfl

theorem simplePiece_moved (p : Position) (c : Char) (cs : List Char) :
    simplePiece (p.moved chars lines) c cs =
      (simplePiece p c cs).mapError (LexError.moved chars lines) := by
  unfold simplePiece
  split
  · rfl
  · split
    · exact numberPiece_moved p _
    · split
      · rfl
      · split <;> rfl

/-- **A step does the same further down.** -/
theorem scanStep_moved (p : Position) (c : Char) (cs : List Char) :
    scanStep (p.moved chars lines) c cs =
      (scanStep p c cs).mapError (LexError.moved chars lines) := by
  unfold scanStep
  split
  · rfl
  · split <;> rfl
  · exact stringPiece_moved p _
  · split
    · rfl
    · exact simplePiece_moved p _ _
  · exact simplePiece_moved p _ _

end Scan

/-! ## The whole text -/

theorem Piece.lexeme?_moved (piece : Piece) (p : Position) :
    (piece.lexeme? (p.moved chars lines)).toList =
      (piece.lexeme? p).toList.map (Lexeme.moved chars lines) := by
  unfold Piece.lexeme?
  cases piece.found with
  | none => rfl
  | some token => simp [Lexeme.moved, Position.moved_after]

/-- The scanner does the same further down, whatever tokens were found before. -/
theorem scanFrom_moved (before : List Lexeme) (p : Position) (cs : List Char)
    (done : List Lexeme) :
    scanFrom (p.moved chars lines) cs (done.map (Lexeme.moved chars lines) ++ before) =
      ((scanFrom p cs done).map fun found =>
        before.reverse ++ found.map (Lexeme.moved chars lines)).mapError
          (LexError.moved chars lines) := by
  fun_induction scanFrom p cs done with
  | case1 p done =>
    rw [scanFrom]
    simp [Except.map, Except.mapError, Lexeme.moved]
  | case2 p done c cs e hstep =>
    have hmoved : Scan.scanStep (p.moved chars lines) c cs = .error (e.moved chars lines) := by
      rw [Scan.scanStep_moved, hstep]
      rfl
    rw [scanFrom_stop hmoved]
    rfl
  | case3 p done c cs piece hstep ih =>
    have hmoved : Scan.scanStep (p.moved chars lines) c cs = .ok piece := by
      rw [Scan.scanStep_moved, hstep]
      rfl
    rw [scanFrom_step hmoved, Piece.lexeme?_moved, ← Position.moved_after, ← List.append_assoc,
      ← List.map_append, ih]

end

/-- The place at the beginning of the line after a text. -/
theorem Position.after_line (cs : List Char) :
    (Position.start.after cs).step '\n' =
      Position.start.moved (cs.length + 1) (cs.count '\n' + 1) := by
  rw [Position.after_eq_placeAt cs []]
  simp only [placeAt, Position.step, Position.moved, Position.start, List.append_nil,
    List.take_length, if_true, Position.mk.injEq, and_true]
  omega

/-- What was scanned up to its end is divided in the same way before a new line. -/
theorem Divided.beforeLine {p : Position} {cs : List Char} {tokens : List Lexeme}
    (h : Divided [] p cs tokens) (rest : List Char) : Divided ('\n' :: rest) p cs tokens := by
  refine h.of_beginsLike fun d hd => Or.inr ?_
  simpa using hd.symm

/-- The scanner goes over a text and a line feed, and then does with another text what it does with
    it by itself. -/
theorem Divided.scan_eq {s : String} {tokens : List Lexeme}
    (h : Divided [] .start s.toList tokens) (t : String) :
    scan (s ++ "\n" ++ t) =
      ((scan t).map fun later =>
        tokens ++ later.map (Lexeme.moved (s.length + 1) (s.toList.count '\n' + 1))).mapError
          (LexError.moved (s.length + 1) (s.toList.count '\n' + 1)) := by
  have htext : (s ++ "\n" ++ t).toList = s.toList ++ '\n' :: t.toList := by
    simp [String.toList_append]
  have hblank : Scan.scanStep (Position.start.after s.toList) '\n' t.toList =
      .ok (Scan.layout ['\n'] t.toList) := Scan.scanStep_blank (by decide)
  have hplace : (Position.start.after s.toList).step '\n' =
      Position.start.moved (s.length + 1) (s.toList.count '\n' + 1) := by
    rw [Position.after_line, String.length_toList]
  calc scanFrom .start (s ++ "\n" ++ t).toList []
    _ = scanFrom (Position.start.after s.toList) ('\n' :: t.toList) (tokens.reverse ++ []) := by
      rw [htext, (h.beforeLine t.toList).scanFrom_eq]
    _ = scanFrom ((Position.start.after s.toList).step '\n') t.toList tokens.reverse := by
      rw [List.append_nil, scanFrom_step hblank]
      rfl
    _ = _ := by
      rw [hplace]
      simpa [scan] using scanFrom_moved tokens.reverse .start t.toList []

/-- **Scanning is a homomorphism** from texts that are joined by a line feed.  If the first text can
    be scanned, the joined text can be if and only if the second one can, and then the tokens of
    the second come after those of the first, further down by the length and the lines of the
    first.  If the second text has an error, so has the joined text: it has the same name and
    wording, and is reported further down in the same column. -/
theorem scan_joined {s : String} {lexemes : List Lexeme} (hs : scan s = .ok lexemes) (t : String) :
    let chars := s.length + 1
    let lines := s.toList.count '\n' + 1
    ∃ tokens, lexemes = tokens ++ [.endAt (Position.start.after s.toList)] ∧
      ((∃ all, scan (s ++ "\n" ++ t) = .ok all) ↔ ∃ later, scan t = .ok later) ∧
      (∀ later, scan t = .ok later →
        scan (s ++ "\n" ++ t) = .ok (tokens ++ later.map (Lexeme.moved chars lines))) ∧
      ∀ e, scan t = .error e → scan (s ++ "\n" ++ t) = .error (e.moved chars lines) ∧
        (e.moved chars lines).report =
          { e.report with line := e.report.line.map (· + (lines : Int)) } := by
  intro chars lines
  obtain ⟨tokens, hd, rfl⟩ := scan_eq_ok_iff.1 hs
  have hjoined := hd.scan_eq t
  refine ⟨tokens, rfl, ?_, ?_, ?_⟩
  · rw [hjoined]
    cases scan t with
    | ok later => exact ⟨fun _ => ⟨later, rfl⟩, fun _ => ⟨_, rfl⟩⟩
    | error e =>
      constructor
      · rintro ⟨all, hall⟩
        cases hall
      · rintro ⟨later, hlater⟩
        cases hlater
  · intro later ht
    rw [hjoined, ht]
    rfl
  · intro e ht
    refine ⟨?_, rfl⟩
    rw [hjoined, ht]
    rfl

/-- The lexemes of `x <`, where half of an operator stands at the end. -/
def halfOperator : List Lexeme :=
  [⟨.identifier, "x", ⟨0, 1, 1⟩, some ⟨1, 1, 2⟩⟩, ⟨.lessThan, "<", ⟨2, 1, 3⟩, some ⟨3, 1, 4⟩⟩,
   .endAt ⟨3, 1, 4⟩]

/-- The other half is not joined to it by a line feed, and a point that stands alone on the next
    line is reported there. -/
theorem scan_joined_halfOperator :
    scan "x <" = .ok halfOperator ∧
      scan "=" = .ok [⟨.equals, "=", ⟨0, 1, 1⟩, some ⟨1, 1, 2⟩⟩, .endAt ⟨1, 1, 2⟩] ∧
      scan "." = .error ⟨.lonePoint, ⟨0, 1, 1⟩⟩ ∧
      ∃ tokens, halfOperator = tokens ++ [.endAt ⟨3, 1, 4⟩] ∧
        scan ("x <" ++ "\n" ++ "=") =
          .ok (tokens ++ [⟨.equals, "=", ⟨4, 2, 1⟩, some ⟨5, 2, 2⟩⟩, .endAt ⟨5, 2, 2⟩]) ∧
        scan ("x <" ++ "\n" ++ ".") = .error ⟨.lonePoint, ⟨4, 2, 1⟩⟩ := by
  have hs : scan "x <" = .ok halfOperator := by decide +kernel
  have ht : scan "=" = .ok [⟨.equals, "=", ⟨0, 1, 1⟩, some ⟨1, 1, 2⟩⟩, .endAt ⟨1, 1, 2⟩] := by
    decide +kernel
  have he : scan "." = .error ⟨.lonePoint, ⟨0, 1, 1⟩⟩ := by decide +kernel
  obtain ⟨tokens, htokens, -, hok, -⟩ := scan_joined hs "="
  obtain ⟨tokens', -, -, -, herror⟩ := scan_joined hs "."
  exact ⟨hs, ht, he, tokens, htokens, hok _ ht, (herror _ he).1⟩

end BoxScript
