/-
  The command line.  The files that the arguments name are looked up and all input is read
  before the work is done; what the work leads to is written then.  So the time cannot be looked
  up during the work: the clock starts with the time before it, in milliseconds, and goes on by
  one each time that it is read.
-/
import BoxScript.CommandLine.Execute

namespace BoxScript.CommandLine

/-- Does an action succeed? -/
def succeeds {α : Type} (action : IO α) : IO Bool := do
  try
    discard action
    return true
  catch _ => return false

/-- What stands at a path. -/
def entryOf (path : String) : IO Entry := do
  try
    return .file (← IO.FS.readFile path)
  catch _ =>
    if ← succeeds (IO.FS.realPath path) then return .folder
    let parent := Path.normal (Path.root path ++ "/".intercalate (Path.parts path).dropLast)
    if ← succeeds (IO.FS.realPath parent) then return .free
    return .lost

/-- The paths that a request can make a run open. -/
def pathsOf (r : Request) : List String :=
  let named := ([r.emitTree, r.runTree, r.program].filterMap given).map Path.normal
  r.debugFile :: named ++ named.map (· ++ ".ast.json")

/-- All that is left on a stream. -/
partial def readAll (stream : IO.FS.Stream) (done : String) : IO String := do
  let line ← stream.getLine
  if line.isEmpty then return done else readAll stream (done ++ line)

/-- The files and the input that a command line needs. -/
def surroundings (arguments : List String) : IO Surroundings := do
  let clock := Clock.counting (← IO.monoMsNow)
  match readArguments arguments with
  | .ok (.work r) =>
    let entries ← (pathsOf r).mapM fun path => return (path, ← entryOf path)
    let input ← if (given r.emitTree).isSome then pure "" else readAll (← IO.getStdin) ""
    return { disk := fun path => (entries.lookup path).getD .lost, input := input, clock := clock }
  | _ => return { disk := fun _ => .lost, input := "", clock := clock }

/-- The exit code of a status, with the line that explains one without a code. -/
def conclusion : Status → Nat × String
  | .exit code => (code, "")
  | .fault f => (1, f.message ++ "\n")
  | .file p => (1, p.message ++ "\n")
  | .tooDeep => (1, "nested too deeply\n")
  | .unreported => (1, "the program cannot be read\n")
  | .unfinished => (1, "a loop did not end\n")

end BoxScript.CommandLine

open BoxScript CommandLine in
/-- The program. -/
def main (arguments : List String) : IO UInt32 := do
  let outcome := execute (← surroundings arguments) arguments
  let (code, explanation) := conclusion outcome.status
  for (path, contents) in outcome.writes do IO.FS.writeFile path contents
  (← IO.getStdout).putStr outcome.output
  (← IO.getStderr).putStr (outcome.errors ++ explanation)
  return code.toUInt32
