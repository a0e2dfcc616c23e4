/-
  Sessions: programs that run one after the other on one machine.

  * `Machine.start` has a global scope with the native functions and null;
  * `runProgram` runs a program in a scope.  With tracing it opens the log, and notes there
    the beginning and the end of the run.  The value of the program is converted to text in
    any case, so a program whose value has no text overflows;
  * `Limits` are the limits on depth and passes.
-/
import BoxScript.Eval.Evaluate
import BoxScript.Grammar.Program

namespace BoxScript

/-- How deep a program may be nested when it is parsed, a document when it is read or
    written, and evaluation when it runs; and how many passes a loop may take. -/
structure Limits where
  nesting : Nat
  document : Nat
  depth : Nat
  passes : Nat
  deriving DecidableEq, Repr

/-- The limits of a session. -/
def Limits.standard : Limits := ⟨300, 900, 1000, Nat.pow 10 15⟩

/-- The outermost scope of a session. -/
def ScopeRef.global : ScopeRef := ⟨0⟩

/-- The store of a new session. -/
def Store.start : Store where
  scopes := #[⟨none, Native.prelude.map fun (name, v) => ⟨name, v, true⟩⟩]

/-- The machine of a new session that reads the given input and clock. -/
def Machine.start (input : String) (clock : Clock) : Machine where
  store := .start
  console := { replies := Console.repliesOf input }
  clock := clock

namespace Session

/-- The number of statements of a program. -/
def statementCount (program : Tree) : Run Nat :=
  match program.body? with
  | none => throw (.fault (.noField program.typeName "body"))
  | some body =>
    match body.items? with
    | some items => pure items.length
    | none => throw (.fault (.noLength body.typeName))

/-- Opens the trace log, if anything is traced. -/
def openLog (cfg : Settings) : Run Unit :=
  if 0 < cfg.traceLevel then modify fun m => { m with lines := some (m.lines.getD #[]) }
  else pure ()

/-- Runs a program and notes its value. -/
def attempt (cfg : Settings) (depth : Nat) (program : Tree) (scope : ScopeRef) :
    Run Value := do
  let v ← evaluate cfg depth program scope
  let text ← Run.display depth v
  Run.trace cfg 1 (return "program finished -> " ++ text)
  return v

/-- Notes why a run halted; an overflow becomes an error of the language. -/
def conclude (cfg : Settings) (halt : Halt) : Run Value := do
  match halt with
  | .overflow =>
    Run.trace cfg 1 (return "error: StackOverflow")
    Run.fail .stackOverflow
  | .error e =>
    Run.trace cfg 1 (return "error: " ++ e.report.text)
    Run.fail e
  | other => throw other

end Session

open Session in
/-- Runs a program in a scope, with at most `depth` nodes inside each other. -/
def runProgram (cfg : Settings) (depth : Nat) (program : Tree) (scope : ScopeRef) :
    Run Value := do
  openLog cfg
  let count ← statementCount program
  Run.trace cfg 1 (return "run program (" ++ toString count ++ " statements)")
  fun m =>
    match attempt cfg depth program scope m with
    | .ok v m => .ok v m
    | .error halt m => conclude cfg halt m

end BoxScript
