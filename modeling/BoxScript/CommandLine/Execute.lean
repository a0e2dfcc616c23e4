/-
  The work of the command line, as a function of the arguments, the files, the input and the
  clock.

  * `Outcome` is the status, what is written to the two streams, and the files written;
  * `execute` reads the arguments and does what they ask for.
-/
import BoxScript.CommandLine.Disk
import BoxScript.CommandLine.Request
import BoxScript.Eval.Session
import BoxScript.Json.Reader
import BoxScript.Json.Writer
import BoxScript.Text.Lines
import BoxScript.Tree.Document

namespace BoxScript.CommandLine

/-- How the work ends: with an exit code, or broken off. -/
inductive Status where
  | exit (code : Nat)
  | fault (f : Fault)
  | file (p : FileProblem)
  | tooDeep
  | unreported
  | unfinished
  deriving DecidableEq, Repr

/-- What the work leads to. -/
structure Outcome where
  status : Status := .exit 0
  output : String := ""
  errors : String := ""
  writes : List (String × String) := []
  deriving DecidableEq, Repr

/-- What the work depends on apart from the arguments. -/
structure Surroundings where
  disk : Disk
  input : String
  clock : Clock
  limits : Limits := .standard

/-- The work ends with a line about an error. -/
def failure (message : String) : Outcome where
  status := .exit 1
  errors := "Error: " ++ message ++ "\n"

/-- The text of the file at a path. -/
def readText (disk : Disk) (path : String) : Except Outcome String :=
  let path := Path.normal path
  match disk path with
  | .file contents => .ok (Text.ofFile contents)
  | .folder => .error { status := .file (.isFolder path) }
  | _ => .error (failure ("file " ++ path ++ " not found"))

/-- The program in a text. -/
def readProgram (limits : Limits) (source : String) : Except Outcome Tree :=
  (parse limits.nesting source).mapError fun e =>
    match e.report? with
    | some r => failure r.text
    | none => { status := .unreported }

/-- The program in a document. -/
def readTree (limits : Limits) (path source : String) : Except Outcome Tree :=
  let invalid (message : String) : Outcome :=
    failure ("invalid AST file " ++ Path.normal path ++ ": " ++ message)
  match Json.parse limits.document source with
  | .error (.malformed cause offset) => .error (invalid (cause.describe source offset))
  | .error .tooDeep => .error { status := .tooDeep }
  | .ok doc =>
    match Tree.ofJson limits.document doc with
    | .error .tooDeep => .error { status := .tooDeep }
    | .error e => .error (invalid e.message)
    | .ok (.program body) => .ok (.program body)
    | .ok _ => .error (invalid "top-level node is not a Program")

/-- Runs a program.  The file for the trace is opened before anything else. -/
def runTree (env : Surroundings) (r : Request) (program : Tree) : Outcome :=
  let cfg : Settings := { traceLevel := r.verbosity, passes := env.limits.passes }
  let opened := if r.verbosity = 0 then .ok () else env.disk.checkWritable r.debugFile
  match opened with
  | .error problem => { status := .file problem }
  | .ok () =>
    let ended (status : Status) (errors : String) (m : Machine) : Outcome :=
      ⟨status, m.console.output, errors, (m.log.map fun text => (r.debugFile, text)).toList⟩
    match runProgram cfg env.limits.depth program .global (.start env.input env.clock) with
    | .ok _ m => ended (.exit 0) "" m
    | .error (.error e) m => ended (.exit 1) ("Error: " ++ e.report.text ++ "\n") m
    | .error (.fault f) m => ended (.fault f) "" m
    | .error .overflow m => ended .tooDeep "" m
    | .error .unfinished m => ended .unfinished "" m

/-- Writes the tree of a program beside it.  A tree that is too deep leaves an empty file. -/
def emitTree (env : Surroundings) (path : String) (program : Tree) : Outcome :=
  let target := Path.normal path ++ ".ast.json"
  match env.disk.checkWritable target with
  | .error problem => { status := .file problem }
  | .ok () =>
    match program.toJson? env.limits.document with
    | some doc => { output := target ++ "\n", writes := [(target, doc.render 0)] }
    | none => { status := .tooDeep, writes := [(target, "")] }

/-- Is a value given that is not empty? -/
def given (value : Option String) : Option String := value.filter (· != "")

/-- Does what is asked for. -/
def fulfil (env : Surroundings) (r : Request) : Except Outcome Outcome := do
  match given r.emitTree, given r.runTree, given r.program with
  | some path, _, _ =>
    return emitTree env path (← readProgram env.limits (← readText env.disk path))
  | none, some path, _ =>
    return runTree env r (← readTree env.limits path (← readText env.disk path))
  | none, none, some path =>
    return runTree env r (← readProgram env.limits (← readText env.disk path))
  | none, none, none => throw { status := .exit 2, errors := UsageError.programMissing.text }

/-- What a command line leads to. -/
def execute (env : Surroundings) (arguments : List String) : Outcome :=
  match readArguments arguments with
  | .error e => { status := .exit 2, errors := e.text }
  | .ok .help => { output := helpText }
  | .ok (.work r) =>
    match fulfil env r with
    | .ok outcome => outcome
    | .error outcome => outcome

end BoxScript.CommandLine
