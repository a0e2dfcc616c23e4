/-
  Safety: what can come of a program text.

  A text is scanned, parsed and run.  It may be malformed, and a program may halt with an error
  of the language.  But no text makes evaluation meet a node or an operator that it does not
  know, or misuse a tree, and no value arises that is none of the language.

  * `Value.OfText` and `Store.OfText`: the values that a text brings about, and the stores that
    hold no others;
  * `Contract.safe` is the contract of this invariant about trees of proper shape, with names of
    any kind, so evaluation has it;
  * `text_safe`: **the outcomes of a text**, from its characters to the end of the run.
-/
import BoxScript.Proofs.Eval.Words
import BoxScript.Proofs.Grammar.Shape

namespace BoxScript

/-- The values that a text brings about: those of the language, with functions of proper
    statements that have texts as parameters. -/
def Value.OfText : Value → Prop
  | .null | .boolean _ | .number _ | .string _ | .array _ | .native _ => True
  | .function f => (∀ p ∈ f.params, ∃ name, p = .text name) ∧ ∀ t ∈ f.body, t.Proper
  | .object _ | .datum _ => False

/-- No other values are bound in a scope or held by an array, and all names are texts. -/
structure Store.OfText (s : Store) : Prop where
  names : ∀ {r b}, b ∈ s.bindings r → ∃ name, b.name = .ofText name
  bound : ∀ {r b}, b ∈ s.bindings r → b.value.OfText
  held : ∀ {a v}, v ∈ s.items a → v.OfText

theorem Value.ofText_iff {v : Value} : v.OfText ↔ v.InWords fun _ => True := by
  cases v <;> simp [OfText, InWords, Tree.ProperIn, Tree.IsWord]

theorem Store.ofText_iff {s : Store} : s.OfText ↔ s.InWords fun _ => True := by
  constructor
  · intro h
    exact ⟨fun hb => (h.names hb).imp fun _ hn => ⟨hn, trivial⟩,
      fun hb => Value.ofText_iff.1 (h.bound hb), fun hv => Value.ofText_iff.1 (h.held hv)⟩
  · intro h
    exact ⟨fun hb => (h.names hb).imp fun _ hn => hn.1, fun hb => Value.ofText_iff.2 (h.bound hb),
      fun hv => Value.ofText_iff.2 (h.held hv)⟩

theorem Store.OfText.start : Store.start.OfText :=
  ofText_iff.2 (.start fun _ _ => trivial)

/-- The contract that only values of the language arise, about trees of proper shape. -/
def Contract.safe : Contract := .wording (fun _ => True) fun _ => trivial

/-! ## Errors of programs -/

/-- The names of the errors that a program can end with. -/
def EvalError.programNames : List String :=
  ["DuplicateDeclaration", "UnknownVariable", "ConstantViolation", "TypeMismatch",
   "DivisionByZero", "IndexOutOfBounds", "NotCallable", "NotAnArray", "IndexNotNumeric",
   "ArityMismatch", "StackOverflow"]

theorem EvalError.IsExpected.name_mem {W : String → Prop} {e : EvalError} (h : e.IsExpected W) :
    e.name ∈ programNames := by
  cases e with
  | unknownArithmetic | unknownComparison | unknownLogical | unknownUnary | unsupportedNode =>
    cases h
  | _ => simp [name, programNames]

theorem trace_ends (cfg : Settings) (level : Nat) (text : String) (m : Machine)
    {Q : Unit → Machine → Prop} {E : Halt → Machine → Prop} (h : ∀ m', Q () m') :
    Ends (Run.trace cfg level (pure text)) m Q E := by
  unfold Run.trace
  split
  · simp only [ends_bind, ends_pure]
    unfold Run.emit
    split <;> exact h _
  · exact h m

/-- The last word on a run is not an overflow. -/
theorem conclude_ne_overflow (cfg : Settings) (halt : Halt) (m : Machine) :
    Ends (Session.conclude cfg halt) m (fun _ _ => True) fun halt _ => halt ≠ .overflow := by
  unfold Session.conclude
  split
  · exact ends_bind.2 (trace_ends cfg 1 _ m fun _ => by simp [Run.fail])
  · exact ends_bind.2 (trace_ends cfg 1 _ m fun _ => by simp [Run.fail])
  · next hno _ => exact hno

/-- **A run does not overflow**: what overflows ends with an error of the language. -/
theorem runProgram_ne_overflow (cfg : Settings) (depth : Nat) (program : Tree) (r : ScopeRef)
    (m : Machine) :
    Ends (runProgram cfg depth program r) m (fun _ _ => True) fun halt _ => halt ≠ .overflow := by
  have hopen : ∀ {Q : Unit → Machine → Prop} {E : Halt → Machine → Prop}, (∀ m', Q () m') →
      Ends (Session.openLog cfg) m Q E := by
    intro Q E h
    unfold Session.openLog
    split <;> exact h _
  have hcount : ∀ m' {Q : Nat → Machine → Prop}, (∀ n, Q n m') →
      Ends (Session.statementCount program) m' Q fun halt _ => halt ≠ .overflow := by
    intro m' Q h
    unfold Session.statementCount
    split
    · simp
    · split
      · exact h _
      · simp
  unfold runProgram
  refine ends_bind.2 (hopen fun m₁ => ends_bind.2 (hcount m₁ fun n => ends_bind.2 ?_))
  refine trace_ends cfg 1 _ m₁ fun m₂ => ?_
  cases ha : Session.attempt cfg depth program r m₂ with
  | ok v m₃ => simp only [Ends, ha]
  | error halt m₃ =>
    unfold Ends
    simp only [ha]
    exact conclude_ne_overflow cfg halt m₃

/-- How the run of a program of a text can end: a loop takes more passes than are allowed, or
    there is an error of the language. -/
def Halt.OfText (halt : Halt) : Prop :=
  halt = .unfinished ∨ ∃ e : EvalError, halt = .error e ∧ e.name ∈ EvalError.programNames

theorem Halt.IsExpected.ofText {W : String → Prop} {halt : Halt} (h : halt.IsExpected W)
    (ho : halt ≠ .overflow) : halt.OfText := by
  cases halt with
  | error e => exact Or.inr ⟨e, rfl, EvalError.IsExpected.name_mem h⟩
  | fault f => cases h
  | overflow => exact absurd rfl ho
  | unfinished => exact Or.inl rfl

/-- The run of a program of proper shape from a store of a text. -/
theorem runProgram_safe (cfg : Settings) (depth : Nat) {items : List Tree}
    (h : ∀ t ∈ items, t.Proper) (r : ScopeRef) {m : Machine} (hm : m.store.OfText) :
    Ends (runProgram cfg depth (.program (.list items)) r) m
      (fun v m' => v.OfText ∧ m'.store.OfText) fun halt m' => halt.OfText ∧ m'.store.OfText := by
  have hitems : ∀ t ∈ items, t.ProperIn fun _ => True := fun t ht => ⟨h t ht, fun _ _ => trivial⟩
  have hmeets := Contract.safe.runProgram_meets cfg depth (r := r) (Or.inr ⟨items, rfl, hitems⟩)
    (Store.ofText_iff.1 hm) trivial
  have hover := runProgram_ne_overflow cfg depth (.program (.list items)) r m
  unfold Contract.Meets at hmeets
  cases hrun : runProgram cfg depth (.program (.list items)) r m with
  | ok v m' =>
    rw [ends_of_ok hrun] at hmeets ⊢
    exact ⟨Value.ofText_iff.2 hmeets.2.2, Store.ofText_iff.2 hmeets.1⟩
  | error halt m' =>
    rw [ends_of_error hrun] at hmeets hover ⊢
    exact ⟨(hmeets.2.2.resolve_left id).ofText hover, Store.ofText_iff.2 hmeets.1⟩

/-- A text that is parsed gives a program of proper statements. -/
theorem parse_proper {nesting : Nat} {source : String} {program : Tree}
    (h : parse nesting source = .ok program) :
    ∃ items, program = .program (.list items) ∧ ∀ t ∈ items, t.Proper := by
  rcases parse_outcome nesting source with ⟨items, hparse, hitems⟩ | ⟨e, hparse, -⟩
  · exact ⟨items, Except.ok.inj (h.symm.trans hparse), hitems⟩
  · cases h.symm.trans hparse

/-- **The outcomes of a text.**  Every numeral that is found in it denotes a number.  It is
    parsed to a program, or has an error of a lexeme, of a token or of the depth of nesting.
    The program, run in a new session on any input and with any clock, ends with a value of the
    language, or halts with one of the errors of programs, or takes more passes than are allowed;
    and no other values are left in the store. -/
theorem text_safe (nesting : Nat) (source : String) :
    (∀ lexemes, scan source = .ok lexemes →
      ∀ l ∈ lexemes, l.kind = .number → (Number.read? l.text).isSome = true) ∧
    match parse nesting source with
    | .error e => e.OfText
    | .ok p =>
      (∃ items, p = .program (.list items)) ∧ ∀ cfg depth input clock,
        Ends (runProgram cfg depth p .global) (.start input clock)
          (fun v m => v.OfText ∧ m.store.OfText) fun halt m => halt.OfText ∧ m.store.OfText := by
  refine ⟨fun lexemes hscan l hl hk => ((scan_spelled hscan).1 l hl).number hk, ?_⟩
  rcases parse_outcome nesting source with ⟨items, hparse, hitems⟩ | ⟨e, hparse, he⟩
  · rw [hparse]
    exact ⟨⟨items, rfl⟩, fun cfg depth _ _ => runProgram_safe cfg depth hitems _ .start⟩
  · rw [hparse]
    exact he

/-- A lexeme on the first line, by its first offset and the offset after it. -/
def Lexeme.inLine (kind : Kind) (text : String) (first past : Nat) : Lexeme :=
  ⟨kind, text, ⟨first, 1, first + 1⟩, some ⟨past, 1, past + 1⟩⟩

/-- A function that uses an unknown name, and a call of it. -/
def unknownInCall : String := "function f() doIt g(subtract .5) end f()"

/-- The lexemes of the text. -/
def unknownInCallLexemes : List Lexeme :=
  [.inLine .functionKw "function" 0 8, .inLine .identifier "f" 9 10, .inLine .beginParams "(" 10 11,
   .inLine .endParams ")" 11 12, .inLine .doItKw "doIt" 13 17, .inLine .identifier "g" 18 19,
   .inLine .beginParams "(" 19 20, .inLine .minus "subtract" 20 28, .inLine .number ".5" 29 31,
   .inLine .endParams ")" 31 32, .inLine .endKw "end" 33 36, .inLine .identifier "f" 37 38,
   .inLine .beginParams "(" 38 39, .inLine .endParams ")" 39 40,
   ⟨.endOfInput, "", ⟨40, 1, 41⟩, none⟩]

/-- The program of the text. -/
def unknownInCallTree : Tree :=
  .program (.list [
    .functionDeclaration (.text "f") (.list []) (.block (.list [
      .callExpression (.identifier (.text "g")) (.list [
        .unaryExpression (.text "subtract")
          (.numberLiteral (.num (Number.ofDecimal false 5 (-1))))])])),
    .callExpression (.identifier (.text "f")) (.list [])])

/-- The numeral is read and the text is parsed; the run halts in the call. -/
theorem text_safe_call :
    let run := runProgram { passes := 1 } 9 unknownInCallTree .global
    scan unknownInCall = .ok unknownInCallLexemes ∧
      Lexeme.inLine .number ".5" 29 31 ∈ unknownInCallLexemes ∧
      (Number.read? ".5").isSome = true ∧ parse 9 unknownInCall = .ok unknownInCallTree ∧
      Ends run (.start "" (.counting 0)) (fun _ _ => False)
        (fun halt _ => halt = .error (.unknownVariable "g")) ∧
      Ends run (.start "" (.counting 0)) (fun v m => v.OfText ∧ m.store.OfText)
        fun halt m => halt.OfText ∧ m.store.OfText := by
  intro run
  have hscan : scan unknownInCall = .ok unknownInCallLexemes := by decide +kernel
  have hmem : Lexeme.inLine .number ".5" 29 31 ∈ unknownInCallLexemes := by
    simp [unknownInCallLexemes]
  have hparse : parse 9 unknownInCall = .ok unknownInCallTree := by
    rw [parse, hscan]
    rfl
  obtain ⟨m, hm⟩ : ∃ m, run (.start "" (.counting 0)) = .error (.error (.unknownVariable "g")) m :=
    ⟨_, by rfl⟩
  obtain ⟨hnumbers, hrun⟩ := text_safe 9 unknownInCall
  rw [hparse] at hrun
  have hread := hnumbers _ hscan _ hmem rfl
  have hsafe := hrun.2 { passes := 1 } 9 "" (.counting 0)
  exact ⟨hscan, hmem, hread, hparse, (ends_of_error hm).2 rfl, hsafe⟩

end BoxScript
