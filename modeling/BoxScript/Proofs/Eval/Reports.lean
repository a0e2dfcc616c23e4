/-
  Reports of one line.

  A message is put together from words of the language, names that the text declares, numbers and
  quoted texts.  All of these are on one line.  Three kinds of text are put in as they are: the
  letter of an invalid escape, the name of a variable that is not found, which `input` takes from a
  text, and the text of an index that is no whole number.

  * `Vocabulary.oneLine`: the words of the language are on one line;
  * `SyntaxError.OfText.oneLine_report_iff` and `EvalError.IsExpected.oneLine_report_iff`: the
    errors whose reports are;
  * `report_lines`: **the reports that go over several lines**, for a text that is parsed and run.
-/
import BoxScript.Proofs.Eval.Safety
import BoxScript.Proofs.Grammar.Texts

namespace BoxScript

open Text

/-! ## Words of the language -/

theorem Shape.oneLine_name (shape : Shape) : OneLine shape.name := by
  cases shape <;> decide

theorem Tree.oneLine_typeName (t : Tree) : OneLine t.typeName := by
  unfold typeName
  split
  case h_7 =>
    cases t.parts? with
    | none => decide
    | some parts => exact parts.1.oneLine_name
  all_goals decide

theorem Vocabulary.oneLine {w : String} (h : Vocabulary w) : OneLine w := by
  cases h with
  | type v =>
    cases v with
    | datum t => exact t.oneLine_typeName
    | _ => simp [Value.typeName, OneLine]
  | node t => exact t.oneLine_typeName
  | comparison h =>
    have htable : ∀ p ∈ Comparison.spellings, OneLine p.1 := by decide
    obtain ⟨op, hop⟩ := Option.isSome_iff_exists.1 h
    exact htable _ (Kind.mem_of_lookup hop)
  | arithmetic h =>
    have htable : ∀ p ∈ Arithmetic.spellings, OneLine p.1 := by decide
    obtain ⟨op, hop⟩ := Option.isSome_iff_exists.1 h
    exact htable _ (Kind.mem_of_lookup hop)
  | logical h => rcases h with rfl | rfl | rfl <;> decide
  | negation h =>
    simp only [Value.isNegation, Bool.or_eq_true, beq_iff_eq] at h
    rcases h with rfl | rfl <;> decide

/-! ## Errors -/

theorem Report.oneLine_columnText (column : Option Int) : OneLine (columnText column) := by
  cases column with
  | none => decide
  | some n => exact lineFeed_not_mem_repr n

/-- The place is on one line, so only the name and the message matter. -/
theorem Report.oneLine_text_iff (r : Report) :
    OneLine r.text ↔ OneLine r.name ∧ OneLine r.message := by
  have hcolumn := oneLine_columnText r.column
  cases h : r.line <;> simp_all [text, OneLine]

theorem LexCause.oneLine_message_iff (cause : LexCause) :
    OneLine cause.message ↔ cause ≠ .invalidEscape '\n' := by
  cases cause with
  | unexpectedCharacter c =>
    have hquoted := oneLine_quoted c.toString
    unfold message
    simp_all [OneLine]
  | _ =>
    unfold message
    simp [OneLine, eq_comm]

theorem Expectation.oneLine_phrase (what : Expectation) : OneLine what.phrase := by
  cases what <;> decide

theorem Token.oneLine_describe (t : Token) : OneLine t.describe := by
  unfold describe
  split
  · decide
  · exact oneLine_quoted t.text

theorem Complaint.oneLine_message (complaint : Complaint) (t : Token) :
    OneLine (complaint.message t) := by
  have htoken := t.oneLine_describe
  cases complaint with
  | expected what =>
    have hphrase := what.oneLine_phrase
    unfold message
    simp_all [OneLine]
  | _ =>
    unfold message
    simp_all [OneLine]

/-- An error of a text has a report.  It is on one line, unless a backslash before a line feed is
    to blame. -/
theorem SyntaxError.OfText.oneLine_report_iff {e : SyntaxError} (h : e.OfText) :
    ∃ r, e.report? = some r ∧
      (OneLine r.text ↔ ∀ place, e ≠ .lexical ⟨.invalidEscape '\n', place⟩) := by
  cases h with
  | lexical e =>
    obtain ⟨cause, place⟩ := e
    have hname : OneLine cause.name := by cases cause <;> simp [LexCause.name, OneLine]
    refine ⟨_, rfl, ?_⟩
    rw [Report.oneLine_text_iff]
    show OneLine cause.name ∧ OneLine cause.message ↔ _
    rw [and_iff_right hname, LexCause.oneLine_message_iff]
    simp
  | unexpected complaint token =>
    refine ⟨_, rfl, ?_⟩
    rw [Report.oneLine_text_iff]
    have hname : OneLine "UnexpectedToken" := by decide
    exact ⟨fun _ _ => by simp, fun _ => ⟨hname, complaint.oneLine_message token⟩⟩
  | tooDeep =>
    refine ⟨_, rfl, ?_⟩
    exact ⟨fun _ _ => by simp, fun _ => by decide⟩

theorem EvalError.oneLine_name (e : EvalError) : OneLine e.name := by
  cases e <;> simp [name, OneLine]

/-- A report in words of one line is on one line itself, unless it names a variable or shows an
    index that is not. -/
theorem EvalError.IsExpected.oneLine_report_iff {e : EvalError} (h : e.IsExpected OneLine) :
    OneLine e.report.text ↔
      ∀ text, e = .unknownVariable text ∨ e = .indexNotWhole text → OneLine text := by
  rw [Report.oneLine_text_iff]
  show OneLine e.name ∧ OneLine e.message ↔ _
  rw [and_iff_right e.oneLine_name]
  cases e <;> unfold message <;> simp_all [IsExpected, OneLine]

/-! ## Texts -/

/-- **The reports that go over several lines.**  A text that is not parsed has a report of one line,
    unless there is a backslash before a line feed in a string.  The program of a text, run in a new
    session, halts with a report of one line, unless a variable with such a name is not found or an
    array is indexed by a value with such a text. -/
theorem report_lines (nesting : Nat) (source : String) :
    (∀ e, parse nesting source = .error e → ∃ r, e.report? = some r ∧
      (OneLine r.text ↔ ∀ place, e ≠ .lexical ⟨.invalidEscape '\n', place⟩)) ∧
    ∀ p, parse nesting source = .ok p → ∀ cfg depth input clock e m,
      runProgram cfg depth p .global (.start input clock) = .error (.error e) m →
        (OneLine e.report.text ↔
          ∀ text, e = .unknownVariable text ∨ e = .indexNotWhole text → OneLine text) := by
  constructor
  · intro e he
    rcases parse_outcome nesting source with ⟨items, hparse, -⟩ | ⟨e', hparse, htext⟩
    · cases he.symm.trans hparse
    · cases he.symm.trans hparse
      exact htext.oneLine_report_iff
  · intro p hp cfg depth input clock e m hrun
    obtain ⟨items, rfl, hitems⟩ := parse_properIn hp
    have hstart : Store.start.InWords OneLine := .start (by decide)
    have hmeets := (Contract.wording OneLine Vocabulary.oneLine).runProgram_meets cfg depth
      (m := .start input clock) (r := .global) (Or.inr ⟨items, rfl, hitems⟩) hstart trivial
    unfold Contract.Meets at hmeets
    rw [ends_of_error hrun] at hmeets
    have hexpected : e.IsExpected OneLine := hmeets.2.2.resolve_left id
    exact hexpected.oneLine_report_iff

/-- A string with a backslash before a line feed. -/
def escapedBreak : String := "\"\\\n\""

/-- The error of the text. -/
def escapedBreakError : LexError := ⟨.invalidEscape '\n', ⟨1, 1, 2⟩⟩

theorem parse_escapedBreak : parse 9 escapedBreak = .error (.lexical escapedBreakError) := by
  have hscan : scan escapedBreak = .error escapedBreakError := by decide +kernel
  rw [parse, hscan]

/-- **A report can go over two lines.** -/
theorem escapedBreak_report :
    ∃ e r, parse 9 escapedBreak = .error e ∧ e.report? = some r ∧
      r.text = "InvalidEscape: invalid escape sequence '\\\n' at line 1, column 2" ∧
      ¬OneLine r.text :=
  ⟨_, _, parse_escapedBreak, rfl, by decide, by decide⟩

/-- An array that is indexed by a text of two lines. -/
def indexedByText : String := "boxes a = [] end a[\"x\\ny\"] = a end"

/-- The lexemes of the text. -/
def indexedByTextLexemes : List Lexeme :=
  [.inLine .boxesKw "boxes" 0 5, .inLine .identifier "a" 6 7, .inLine .equals "=" 8 9,
   .inLine .openArray "[" 10 11, .inLine .closeArray "]" 11 12, .inLine .endKw "end" 13 16,
   .inLine .identifier "a" 17 18, .inLine .openArray "[" 18 19, .inLine .string "x\ny" 19 25,
   .inLine .closeArray "]" 25 26, .inLine .equals "=" 27 28, .inLine .identifier "a" 29 30,
   .inLine .endKw "end" 31 34, ⟨.endOfInput, "", ⟨34, 1, 35⟩, none⟩]

/-- The program of the text. -/
def indexedByTextTree : Tree :=
  .program (.list [
    .variableDeclaration (.text "a") (.arrayLiteral (.list [])) (.bool false) (.bool true),
    .assignmentExpression
      (.arrayAccess (.identifier (.text "a")) (.stringLiteral (.text "x\ny")))
      (.identifier (.text "a"))])

/-- The reports on the malformed string and on the index go over two lines. -/
theorem report_lines_twice :
    let run := runProgram { passes := 1 } 9 indexedByTextTree .global
      (.start "" (.counting 0))
    parse 9 escapedBreak = .error (.lexical escapedBreakError) ∧
      ¬OneLine escapedBreakError.report.text ∧
      parse 9 indexedByText = .ok indexedByTextTree ∧
      (∃ m, run = .error (.error (.indexNotWhole "x\ny")) m) ∧
      ¬OneLine (EvalError.indexNotWhole "x\ny").report.text := by
  intro run
  have hscan : scan indexedByText = .ok indexedByTextLexemes := by decide +kernel
  have hparse : parse 9 indexedByText = .ok indexedByTextTree := by
    rw [parse, hscan]
    rfl
  obtain ⟨m, hrun⟩ : ∃ m, run = .error (.error (.indexNotWhole "x\ny")) m := ⟨_, by rfl⟩
  obtain ⟨r, hr, hline⟩ := (report_lines 9 escapedBreak).1 _ parse_escapedBreak
  cases hr
  have hindex := (report_lines 9 indexedByText).2 _ hparse _ _ _ _ _ m hrun
  refine ⟨parse_escapedBreak, fun h => hline.1 h _ rfl, hparse, ⟨m, hrun⟩, fun h => ?_⟩
  exact absurd (hindex.1 h _ (Or.inr rfl)) (by decide)

end BoxScript
