/-
  The switches of the command line, and what is wrong with a command line.
-/
import BoxScript.Text.Quoted

namespace BoxScript.CommandLine

/-- The switches: show help, trace more, name the file for the trace, write the tree of a
    program to a file, run a tree from a file. -/
inductive Switch where
  | help | verbose | debugFile | emitTree | runTree
  deriving DecidableEq, Repr

namespace Switch

/-- All spellings, in the order in which they are listed. -/
def spellings : List (String × Switch) :=
  [("-h", help), ("--help", help), ("-v", verbose), ("--debug-file", debugFile),
   ("--emit-ast", emitTree), ("--ast", runTree)]

/-- How messages name a switch. -/
def title : Switch → String
  | help => "-h/--help"
  | verbose => "-v"
  | debugFile => "--debug-file"
  | emitTree => "--emit-ast"
  | runTree => "--ast"

/-- The switch that is spelled by a dash and one letter. -/
def short? (c : Char) : Option Switch := spellings.lookup (String.ofList ['-', c])

end Switch

/-- What is wrong with a command line. -/
inductive UsageError where
  | valueExpected (s : Switch)
  | valueIgnored (s : Switch) (value : String)
  | conflict (s other : Switch)
  | ambiguous (word : String) (spellings : List String)
  | unrecognized (words : List String)
  | programMissing
  deriving DecidableEq, Repr

/-- The wording of an error. -/
def UsageError.message : UsageError → String
  | valueExpected s => "argument " ++ s.title ++ ": expected one argument"
  | valueIgnored s value =>
    "argument " ++ s.title ++ ": ignored explicit argument " ++ Text.quoted value
  | conflict s other =>
    "argument " ++ s.title ++ ": not allowed with argument " ++ other.title
  | ambiguous word spellings =>
    "ambiguous option: " ++ word ++ " could match " ++ ", ".intercalate spellings
  | unrecognized words => "unrecognized arguments: " ++ " ".intercalate words
  | programMissing => "missing program file; or use --emit-ast/--ast"

/-- The summary of the command line. -/
def usageText : String :=
  "usage: boxlang [-h] [-v] [--debug-file DEBUG_FILE]\n" ++
  "               [--emit-ast BOX_FILE | --ast AST_JSON_FILE]\n" ++
  "               [program]\n"

/-- What is shown for help. -/
def helpText : String :=
  usageText ++
  "\nBoxLang interpreter\n" ++
  "\npositional arguments:\n" ++
  "  program               BoxLang program file (.box) to execute\n" ++
  "\noptions:\n" ++
  "  -h, --help            show this help message and exit\n" ++
  "  -v                    increase debug verbosity (can be repeated)\n" ++
  "  --debug-file DEBUG_FILE\n" ++
  "                        file that receives debug output\n" ++
  "  --emit-ast BOX_FILE   emit AST JSON for the given .box file\n" ++
  "  --ast AST_JSON_FILE   execute AST from a JSON file\n"

/-- What is shown for an error. -/
def UsageError.text (e : UsageError) : String :=
  usageText ++ "boxlang: error: " ++ e.message ++ "\n"

end BoxScript.CommandLine
