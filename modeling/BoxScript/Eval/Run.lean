/-
  Runs of a program: what they change and how they end.

  * `Console` holds the text written so far and the replies that are still to be read;
  * `Clock` has a reading for each time that it is read;
  * `Machine` is a store with a console, a clock and the lines of the trace log, if a log was
    opened; `Machine.log` is the text of the log;
  * `Run` is the monad of evaluation.  A run that halts keeps the machine as it is then;
  * `Halt` tells why: an error of the language, the fault of a loosely typed tree, or a
    limit.
-/
import BoxScript.Store.Display

namespace BoxScript

/-- The text written so far, and the lines that are still to be read. -/
structure Console where
  output : String := ""
  replies : List String := []
  deriving DecidableEq, Repr

namespace Console

/-- The lines of a text.  A last line without a line feed counts if it is not empty. -/
def repliesOf (input : String) : List String :=
  let lines := input.splitOn "\n"
  if lines.getLast? == some "" then lines.dropLast else lines

/-- Writes a text. -/
def write (c : Console) (text : String) : Console := { c with output := c.output ++ text }

end Console

/-- A clock: what it shows each time that it is read, and how often it was read so far.  The
    readings can be any numbers. -/
structure Clock where
  readings : Nat → Float
  taken : Nat := 0

namespace Clock

/-- What the clock shows when it is read next. -/
def now (c : Clock) : Float := c.readings c.taken

/-- The clock after it was read. -/
def tick (c : Clock) : Clock := { c with taken := c.taken + 1 }

/-- The clock that shows `start` when it is first read, and one more each time after. -/
def counting (start : Nat) : Clock where
  readings n := Float.ofNat (start + n)

end Clock

/-- What a run works on. -/
structure Machine where
  store : Store := {}
  console : Console := {}
  clock : Clock
  lines : Option (Array String) := none

/-- The text of the trace log: its lines, each ended by a line feed. -/
def Machine.log (m : Machine) : Option String :=
  m.lines.map fun lines => lines.foldl (fun text line => text ++ line ++ "\n") ""

/-- Why a run has no value. -/
inductive Halt where
  /-- An error of the language. -/
  | error (e : EvalError)
  /-- The misuse of a loosely typed tree. -/
  | fault (f : Fault)
  /-- Evaluation is nested deeper than the limit. -/
  | overflow
  /-- A loop went on for more passes than the limit. -/
  | unfinished
  deriving DecidableEq, Repr

/-- Where trace lines go. -/
inductive TraceSink where
  | console | log
  deriving DecidableEq, Repr

/-- What stays the same during a run: how much is traced and where to, and the passes that a
    loop may take. -/
structure Settings where
  traceLevel : Nat := 0
  traceSink : TraceSink := .log
  passes : Nat
  deriving DecidableEq, Repr

/-- Evaluation with an effect on a machine. -/
abbrev Run := EStateM Halt Machine

namespace Run

/-- Halts with an error of the language. -/
def fail {α : Type} (e : EvalError) : Run α := throw (.error e)

/-- The value of a check that can fail. -/
def lift {α : Type} : Except EvalError α → Run α
  | .ok a => pure a
  | .error e => fail e

/-- The store. -/
def store : Run Store := return (← get).store

/-- Changes the store. -/
def changeStore (f : Store → Store) : Run Unit := modify fun m => { m with store := f m.store }

/-- A new scope inside `parent`. -/
def newScope (parent : ScopeRef) : Run ScopeRef :=
  modifyGet fun m =>
    let (r, s) := m.store.addScope (some parent)
    (r, { m with store := s })

/-- A new array. -/
def newArray (items : List Value) : Run Value :=
  modifyGet fun m =>
    let (r, s) := m.store.addArray items.toArray
    (.array r, { m with store := s })

/-- A new object. -/
def newObject (entries : List (Name × Value)) : Run Value :=
  modifyGet fun m =>
    let (r, s) := m.store.addObject entries
    (.object r, { m with store := s })

/-- Puts the result of a check in the place of the store. -/
def replaceStore (f : Store → Except EvalError Store) : Run Unit := do
  let s ← lift (f (← store))
  changeStore fun _ => s

/-- Declares a new name in a scope. -/
def declare (r : ScopeRef) (name : Name) (v : Value) (constant : Bool) : Run Unit :=
  replaceStore fun s => s.declare r name v constant

/-- Assigns to a name that the scope sees. -/
def assign (r : ScopeRef) (name : Name) (v : Value) : Run Unit :=
  replaceStore fun s => s.assign r name v

/-- The value of a name. -/
def lookup (r : ScopeRef) (name : Name) : Run Value := do lift ((← store).lookup r name)

/-- Puts a value at a position of an array. -/
def setItem (r : ArrayRef) (position : Nat) (v : Value) : Run Unit :=
  changeStore fun s => s.setItem r position v

/-- The text of a value; halts if it is nested too deep. -/
def display (depth : Nat) (v : Value) : Run String := do
  match (← store).display? depth v with
  | some text => return text
  | none => throw .overflow

/-- A tree as messages give it; halts if it is nested too deep. -/
def spelling (depth : Nat) (t : Tree) : Run String :=
  match t.spelling? depth with
  | some text => pure text
  | none => throw .overflow

/-- A tree as a name; halts if there is a list in it. -/
def nameOf (depth : Nat) : Tree → Run Name
  | .text s => pure (.ofText s)
  | t =>
    match t.key? with
    | some key => return ⟨key, ← spelling depth t⟩
    | none => throw (.fault .noName)

@[simp] theorem nameOf_text (depth : Nat) (s : String) :
    nameOf depth (.text s) = pure (.ofText s) := rfl

/-- What the clock shows. -/
def readClock : Run Float := modifyGet fun m => (m.clock.now, { m with clock := m.clock.tick })

/-- Writes a text to the console. -/
def write (text : String) : Run Unit := modify fun m => { m with console := m.console.write text }

/-- Writes a trace line to where it goes. -/
def emit (sink : TraceSink) (line : String) : Run Unit :=
  match sink with
  | .console => write (line ++ "\n")
  | .log => modify fun m => { m with lines := some ((m.lines.getD #[]).push line) }

/-- Traces a line, if lines of this level are traced; else the line is not even made. -/
def trace (cfg : Settings) (level : Nat) (line : Run String) : Run Unit := do
  if level ≤ cfg.traceLevel then emit cfg.traceSink (← line)

end Run

end BoxScript
