/-
  Native functions.

  * `print` writes its arguments with blanks between them on a line;
  * `input` asks for a new value of a variable.  A variable that holds a number is asked
    for until a reply is a finite number (`askNumber`); one that holds a text takes the
    next reply as it is;
  * `time` reads the clock, and `length` counts the elements of an array.
-/
import BoxScript.Eval.Run
import BoxScript.Number.Reading
import BoxScript.Text.Blank

namespace BoxScript.Native

/-- The prompt of `input` if none is given. -/
def defaultPrompt : String := "Enter a value:"

/-- The line that asks for another reply. -/
def retryLine (name : String) : String :=
  "Error: expected a number for variable '" ++ name ++ "'. Please try again.\n"

/-- The finite number that a reply denotes. -/
def replyNumber? (reply : String) : Option Float :=
  match Number.read? (String.ofList (Text.trimBlanks reply.toList)) with
  | some x => if x.isFinite then some x else none
  | none => none

/-- Asks for a number, prompting once for each reply and once more at the end of input:
    what is written, the number, and the replies that are left. -/
def askNumber (name prompt : String) : List String → String × Option Float × List String
  | [] => (prompt ++ " ", none, [])
  | reply :: rest =>
    match replyNumber? reply with
    | some x => (prompt ++ " ", some x, rest)
    | none =>
      let (written, number, left) := askNumber name prompt rest
      (prompt ++ " " ++ retryLine name ++ written, number, left)

/-- Asks for a text: what is written, the reply, and the replies that are left. -/
def askText (prompt : String) : List String → String × Option String × List String
  | [] => (prompt ++ " ", none, [])
  | reply :: rest => (prompt ++ " ", some reply, rest)

/-- Takes the answer to a prompt into account on the console. -/
def answered {α : Type} (ask : List String → String × α × List String) : Run α :=
  modifyGet fun m =>
    let (written, answer, left) := ask m.console.replies
    (answer, { m with console := ⟨m.console.output ++ written, left⟩ })

/-- Asks for a new value of the name, which holds `current`, and assigns it. -/
def askFor (scope : ScopeRef) (name prompt : String) (current : Value) : Run Value := do
  match current with
  | .number _ =>
    match ← answered (askNumber name prompt) with
    | some x => Run.assign scope name (.number x)
    | none => pure ()
    return .null
  | .string _ =>
    match ← answered (askText prompt) with
    | some reply => Run.assign scope name (.string reply)
    | none => pure ()
    return .null
  | other => Run.fail (.inputType name other.typeName)

/-- `input(name)` and `input(name, prompt)` -/
def input (depth : Nat) (scope : ScopeRef) (args : List Value) : Run Value := do
  match args with
  | [.string name] => askFor scope name defaultPrompt (← Run.lookup scope name)
  | [.string name, prompt] =>
    let text ← Run.display depth prompt
    askFor scope name text (← Run.lookup scope name)
  | [_] | [_, _] => Run.fail .inputName
  | _ => Run.fail .inputArity

/-- `print(values)` -/
def print (depth : Nat) (args : List Value) : Run Value := do
  let texts ← args.mapM (Run.display depth)
  Run.write (" ".intercalate texts ++ "\n")
  return .null

/-- `length(array)` -/
def length (args : List Value) : Run Value := do
  match args with
  | .array r :: _ => return .number (Float.ofNat ((← Run.store).items r).size)
  | other :: _ => Run.fail (.lengthType other.typeName)
  | [] => return .null

/-- What a native function does with arguments whose number was checked. -/
def perform (depth : Nat) (scope : ScopeRef) (args : List Value) : Action → Run Value
  | .print => print depth args
  | .input => input depth scope args
  | .time => return .number (← Run.readClock)
  | .length => length args
  | .none => return .null

/-- The names that every global scope begins with. -/
def prelude : List (String × Value) :=
  [("print", .native ⟨"print", none, .print⟩),
   ("input", .native ⟨"input", none, .input⟩),
   ("time", .native ⟨"time", some 0, .time⟩),
   ("length", .native ⟨"length", some 1, .length⟩),
   ("null", .null)]

end BoxScript.Native
