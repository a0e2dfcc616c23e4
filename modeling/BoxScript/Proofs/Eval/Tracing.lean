/-
  Tracing: a run that traces more does the same, and its log has more lines.

  The one way in which tracing shows in the run of a text is an overflow: a trace line may tell a
  value that the program itself never shows, and a value that reaches itself has no text.  A tree
  that comes from elsewhere may also have parameters that are no texts, which only a trace line
  minds.

  * `Settings.tracing` are settings with the trace of some level written to the log, and
    `Machine.messages` the lines of the log;
  * `Quieter`: two results are the same, but for messages of the first that the second leaves out;
  * `tracing_transparent`: **tracing changes nothing but the log**, unless the run that traces more
    ends in a stack overflow.
-/
import BoxScript.Proofs.Eval.Following
import BoxScript.Proofs.Eval.Safety

namespace BoxScript

/-- The settings, with a trace of the given level in the log. -/
def Settings.tracing (cfg : Settings) (level : Nat) : Settings :=
  { cfg with traceLevel := level, traceSink := .log }

/-- The lines of the trace log, in the order in which they were written. -/
def Machine.messages (m : Machine) : List String := (m.lines.getD #[]).toList

/-- The same store, console and clock; the messages of `m'` are among those of `m`, in the same
    order. -/
structure Machine.Quieter (m m' : Machine) : Prop where
  store : m'.store = m.store
  console : m'.console = m.console
  clock : m'.clock = m.clock
  messages : m'.messages.Sublist m.messages

/-- Runs that end in the same way, the second one with fewer messages. -/
inductive Quieter : EStateM.Result Halt Machine Value → EStateM.Result Halt Machine Value → Prop
  | ok (v : Value) {m m' : Machine} (h : m.Quieter m') : Quieter (.ok v m) (.ok v m')
  | error (halt : Halt) {m m' : Machine} (h : m.Quieter m') :
      Quieter (.error halt m) (.error halt m')

section

variable {cfg : Settings} {level : Nat} {hlevel : level ≤ cfg.traceLevel}
  {hsink : level < cfg.traceLevel → cfg.traceSink = .log}

theorem Likeness.Machines.quieter {m m' : Machine}
    (hm : (Likeness.same cfg level hlevel hsink).Machines m m') : m.Quieter m' :=
  ⟨Store.like_eq_iff.1 hm.store, hm.console, hm.clock, hm.lines⟩

/-- Results of runs of the same program that agree. -/
theorem quieter_of_agrees {Cut : Halt → Prop} {x y : EStateM.Result Halt Machine Value}
    (h : Agrees Cut (Likeness.same cfg level hlevel hsink).Halts
      (Likeness.same cfg level hlevel hsink).Machines
      (Likeness.same cfg level hlevel hsink).Values x y) :
    (∃ halt m, x = .error halt m ∧ Cut halt) ∨ Quieter x y := by
  cases h with
  | cut hcut => exact Or.inl ⟨_, _, rfl, hcut⟩
  | ok hv hm =>
    rw [Value.like_eq_iff.1 hv]
    exact Or.inr (.ok _ hm.quieter)
  | error he hm =>
    rw [Likeness.same_halts.1 he]
    exact Or.inr (.error _ hm.quieter)

end

/-- A run that traces less does the same, unless the other one overflows or meets a parameter that
    it cannot trace. -/
theorem runProgram_quieter (cfg : Settings) {level level' : Nat} (h : level ≤ level') (depth : Nat)
    (program : Tree) (scope : ScopeRef) (m : Machine)
    (hrun : ∀ halt m', runProgram (cfg.tracing level') depth program scope m = .error halt m' →
      halt ≠ .error .stackOverflow ∧ ¬halt.Untraceable) :
    Quieter (runProgram (cfg.tracing level') depth program scope m)
      (runProgram (cfg.tracing level) depth program scope m) := by
  have hlevel : level ≤ (cfg.tracing level').traceLevel := h
  have hsink : level < (cfg.tracing level').traceLevel → (cfg.tracing level').traceSink = .log :=
    fun _ => rfl
  have hfollows : Agrees _ (Likeness.same _ level hlevel hsink).Halts _ _ _ _ :=
    Likeness.runProgram_same (Nat.le_refl depth) program scope m m (Likeness.same_machines m)
  rcases quieter_of_agrees hfollows with ⟨halt, m', hend, hcut⟩ | hquieter
  · obtain ⟨hover, htrace⟩ := hrun halt m' hend
    rcases hcut with rfl | ⟨-, huntraceable⟩
    · exact absurd rfl hover
    · exact absurd huntraceable htrace
  · exact hquieter

/-- The run of a text never meets a parameter that it cannot trace. -/
theorem Halt.OfText.not_untraceable {halt : Halt} (h : halt.OfText) : ¬halt.Untraceable := by
  rintro ⟨position, type, rfl⟩
  rcases h with h | ⟨e, h, -⟩ <;> cases h

/-- **Tracing changes nothing but the log.**  Let a program that some text is parsed to run in a new
    session.  If the run that traces up to `level'` does not end in a stack overflow, one that
    traces less ends with the same value or for the same reason, with the same store, the same
    output, the same replies left and the clock read as often; and its messages are among those of
    the other one, in the same order.

    This is so for every tree, in any scope and from any machine, if in addition the run does not
    end with a function whose parameters cannot be traced. -/
theorem tracing_transparent (cfg : Settings) {level level' : Nat} (h : level ≤ level')
    (depth : Nat) :
    (∀ nesting source program, parse nesting source = .ok program → ∀ input clock,
      (∀ m, runProgram (cfg.tracing level') depth program .global (.start input clock) ≠
        .error (.error .stackOverflow) m) →
      Quieter (runProgram (cfg.tracing level') depth program .global (.start input clock))
        (runProgram (cfg.tracing level) depth program .global (.start input clock))) ∧
    ∀ program scope m,
      (∀ halt m', runProgram (cfg.tracing level') depth program scope m = .error halt m' →
        halt ≠ .error .stackOverflow ∧ ¬halt.Untraceable) →
      Quieter (runProgram (cfg.tracing level') depth program scope m)
        (runProgram (cfg.tracing level) depth program scope m) := by
  refine ⟨fun nesting source program hparse input clock hrun => ?_, runProgram_quieter cfg h depth⟩
  obtain ⟨items, rfl, hitems⟩ := parse_proper hparse
  refine runProgram_quieter cfg h depth _ _ _ fun halt m hend => ⟨?_, ?_⟩
  · rintro rfl
    exact hrun m hend
  · have hsafe := runProgram_safe (cfg.tracing level') depth hitems .global
      (m := .start input clock) .start
    rw [ends_of_error hend] at hsafe
    exact hsafe.1.not_untraceable

/-- A variable, and an `if` statement that reads the clock and prints the variable. -/
def greeting : String := "box x = \"a\" end if x doIt time() print(x) end"

/-- The lexemes of the text. -/
def greetingLexemes : List Lexeme :=
  [.inLine .boxKw "box" 0 3, .inLine .identifier "x" 4 5, .inLine .equals "=" 6 7,
   .inLine .string "a" 8 11, .inLine .endKw "end" 12 15, .inLine .ifKw "if" 16 18,
   .inLine .identifier "x" 19 20, .inLine .doItKw "doIt" 21 25, .inLine .identifier "time" 26 30,
   .inLine .beginParams "(" 30 31, .inLine .endParams ")" 31 32, .inLine .identifier "print" 33 38,
   .inLine .beginParams "(" 38 39, .inLine .identifier "x" 39 40, .inLine .endParams ")" 40 41,
   .inLine .endKw "end" 42 45, ⟨.endOfInput, "", ⟨45, 1, 46⟩, none⟩]

/-- The program of the text. -/
def greetingTree : Tree :=
  .program (.list
    [.variableDeclaration (.text "x") (.stringLiteral (.text "a")) (.bool false) (.bool false),
     .ifStatement (.identifier (.text "x"))
       (.block (.list [.callExpression (.identifier (.text "time")) (.list []),
         .callExpression (.identifier (.text "print")) (.list [.identifier (.text "x")])])) .null])

/-- The program with the trace of two levels: the same is printed, and of six messages two are
    left. -/
theorem tracing_transparent_greeting :
    let run := fun level => runProgram (Settings.tracing { passes := 1 } level) 9 greetingTree
      .global (.start "" (.counting 0))
    parse 9 greeting = .ok greetingTree ∧
      ∃ m m', run 4 = .ok .null m ∧ run 1 = .ok .null m' ∧ m.Quieter m' ∧
        m.console.output = "a\n" ∧ m.clock.taken = 1 ∧
        m.messages = ["run program (2 statements)", "declare variable x: String = a",
          "if condition a -> True", "call native time()", "call native print(a)",
          "program finished -> null"] ∧
        m'.messages = ["run program (2 statements)", "program finished -> null"] := by
  intro run
  have hscan : scan greeting = .ok greetingLexemes := by decide +kernel
  have hparse : parse 9 greeting = .ok greetingTree := by
    rw [parse, hscan]
    rfl
  obtain ⟨m, hmore, hend⟩ : ∃ m, run 4 = .ok .null m ∧ m.console.output = "a\n" ∧
      m.clock.taken = 1 ∧
      m.messages = ["run program (2 statements)", "declare variable x: String = a",
        "if condition a -> True", "call native time()", "call native print(a)",
        "program finished -> null"] :=
    ⟨_, by rfl, by rfl, by rfl, by rfl⟩
  obtain ⟨m', hless, hmessages⟩ : ∃ m', run 1 = .ok .null m' ∧
      m'.messages = ["run program (2 statements)", "program finished -> null"] :=
    ⟨_, by rfl, by rfl⟩
  have hquieter : Quieter (run 4) (run 1) :=
    (tracing_transparent _ (by decide) 9).1 9 greeting greetingTree hparse "" (.counting 0)
      fun _ hover => by cases hmore.symm.trans hover
  rw [hmore, hless] at hquieter
  cases hquieter with
  | ok _ h => exact ⟨hparse, m, m', hmore, hless, h, hend.1, hend.2.1, hend.2.2, hmessages⟩

/-- An array that holds itself, and a function without statements. -/
def Store.selfHolding : Store where
  scopes := #[⟨none, [⟨"a", .array ⟨0⟩, false⟩,
    ⟨"f", .function ⟨"f", [.text "x"], [], ⟨0⟩⟩, true⟩]⟩]
  arrays := #[#[.array ⟨0⟩]]

/-- The call `f(a)`, where `a` holds itself, overflows if calls are traced, and else does not. -/
example :
    let run := fun level => runProgram (Settings.tracing { passes := 1 } level) 9
      (.program (.list [.callExpression (.identifier (.text "f"))
        (.list [.identifier (.text "a")])])) .global
      { store := .selfHolding, clock := .counting 0 }
    (∃ m, run 3 = .ok .null m) ∧ ∃ m, run 4 = .error (.error .stackOverflow) m :=
  ⟨⟨_, rfl⟩, ⟨_, rfl⟩⟩

/-- A function with a parameter that is a number can be declared as long as it is not traced. -/
example :
    let run := fun level => runProgram (Settings.tracing { passes := 1 } level) 9
      (.program (.list [.functionDeclaration (.text "f") (.list [.int 1]) (.block (.list []))]))
      .global (.start "" (.counting 0))
    (∃ v m, run 1 = .ok v m) ∧ ∃ m, run 2 = .error (.fault (.parameterNoText 0 "int")) m :=
  ⟨⟨_, _, rfl⟩, ⟨_, rfl⟩⟩

end BoxScript
