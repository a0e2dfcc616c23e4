/-
  What a command line asks for.

  Each word is classified first, without regard to the others (`Word.ofText`), except that
  all words after `--` are plain.  Then the words are read from left to right (`readWords`),
  and the first error wins.

  * A long switch may be cut short as long as it stays the only one that fits, and may have
    its value after `=`;
  * short switches may be joined behind one dash, and a `=` after the first of them makes no
    difference.  A letter that is none of them is an error of the switch before it;
  * the first plain word that is no value of a switch is the program.  A `--` right before
    or right after it is dropped, any other is not recognized.
-/
import BoxScript.CommandLine.Usage
import BoxScript.Text.DecimalDigit

namespace BoxScript.CommandLine

/-- A word of the command line. -/
inductive Word where
  /-- No switch. -/
  | plain (text : String)
  /-- The word `--`. -/
  | divider
  /-- It looks like a switch, but there is none of that name. -/
  | unknown (text : String)
  /-- A switch on its own. -/
  | switch (s : Switch)
  /-- A switch with a value after `=`. -/
  | valued (s : Switch) (value : String)
  /-- A short switch with more letters behind it or behind its `=`. -/
  | cluster (s : Switch) (letters : List Char)
  deriving DecidableEq, Repr

namespace Word

/-- Does the text look like a negative number?  A line feed at the end does not count. -/
def looksNegative (letters : List Char) : Bool :=
  match letters with
  | '-' :: rest =>
    let rest := if rest.getLast? == some '\n' then rest.dropLast else rest
    let isDigit (c : Char) : Bool := (Text.digitValue? c).isSome
    match rest.dropWhile isDigit with
    | [] => !rest.isEmpty
    | '.' :: fraction => !fraction.isEmpty && fraction.all isDigit
    | _ => false
  | _ => false

/-- The part before the first `=`, and the part after it if there is one. -/
def splitValue (letters : List Char) : String × Option String :=
  let name := String.ofList (letters.takeWhile (· != '='))
  match letters.dropWhile (· != '=') with
  | [] => (name, none)
  | _ :: value => (name, some (String.ofList value))

/-- A word that begins with a dash and is no switch. -/
def other (text : String) : Word :=
  if looksNegative text.toList || text.toList.contains ' ' then plain text else unknown text

/-- A switch with or without a value after `=`. -/
def withValue (s : Switch) : Option String → Word
  | none => switch s
  | some value => valued s value

/-- A word that begins with two dashes and is not spelled out. -/
def ofLong (text : String) : Except UsageError Word :=
  let (name, value) := splitValue text.toList
  match Switch.spellings.filter fun (spelling, _) => name.toList.isPrefixOf spelling.toList with
  | [] => .ok (other text)
  | [(_, s)] => .ok (withValue s value)
  | several => .error (.ambiguous text (several.map Prod.fst))

/-- A word that begins with one dash and is not spelled out. -/
def ofShort (text : String) (letter : Char) (letters : List Char) : Word :=
  match Switch.short? letter with
  | some s => cluster s letters
  | none => other text

/-- Classifies a word. -/
def ofText (text : String) : Except UsageError Word :=
  match Switch.spellings.lookup text with
  | some s => .ok (switch s)
  | none =>
    match splitValue text.toList, text.toList with
    | (name, some value), '-' :: c :: rest =>
      match Switch.spellings.lookup name with
      | some s => .ok (if c = '-' || value = "" then valued s value else cluster s value.toList)
      | none => if c = '-' then ofLong text else .ok (ofShort text c rest)
    | _, '-' :: '-' :: _ => ofLong text
    | _, '-' :: c :: rest => .ok (ofShort text c rest)
    | _, _ => .ok (plain text)

/-- Classifies all words. -/
def ofTexts : List String → Except UsageError (List Word)
  | [] => .ok []
  | text :: rest =>
    if text = "--" then .ok (divider :: rest.map plain)
    else do
      let word ← ofText text
      return word :: (← ofTexts rest)

/-- The switches of a cluster.  The letters that begin with an unknown one are taken for a
    value of the switch before them, which takes none. -/
def expand (s : Switch) : List Char → Except UsageError (List Switch)
  | [] => .ok [s]
  | c :: rest =>
    match Switch.short? c with
    | none => .error (.valueIgnored s (String.ofList (c :: rest)))
    | some t => (expand t rest).map fun switches => s :: switches

end Word

/-- What is asked for. -/
structure Request where
  verbosity : Nat := 0
  debugFile : String := "debug.txt"
  emitTree : Option String := none
  runTree : Option String := none
  program : Option String := none
  deriving DecidableEq, Repr

/-- A command line asks for help or for work. -/
inductive Wish where
  | help
  | work (r : Request)
  deriving DecidableEq, Repr

namespace Request

/-- The request with the value of a switch taken in. -/
def set (r : Request) (s : Switch) (value : String) : Except UsageError Request :=
  match s with
  | .debugFile => .ok { r with debugFile := value }
  | .emitTree =>
    if r.runTree.isSome then .error (.conflict .emitTree .runTree)
    else .ok { r with emitTree := some value }
  | .runTree =>
    if r.emitTree.isSome then .error (.conflict .runTree .emitTree)
    else .ok { r with runTree := some value }
  | .help | .verbose => .error (.valueIgnored s value)

/-- Traces one level more for each `-v`. -/
def raise (r : Request) (levels : Nat) : Request := { r with verbosity := r.verbosity + levels }

end Request

/-- Reads words from left to right.  `placed` tells that the place of the program is taken,
    and `extras` are the words that were not recognized. -/
def readWords (r : Request) (placed : Bool) (extras : List String) :
    List Word → Except UsageError Wish
  | [] => if extras.isEmpty then .ok (.work r) else .error (.unrecognized extras)
  | .plain text :: .divider :: rest =>
    if placed then readWords r placed (extras ++ [text, "--"]) rest
    else readWords { r with program := some text } true extras rest
  | .plain text :: rest =>
    if placed then readWords r placed (extras ++ [text]) rest
    else readWords { r with program := some text } true extras rest
  | .divider :: .plain text :: rest =>
    if placed then readWords r placed (extras ++ ["--", text]) rest
    else readWords { r with program := some text } true extras rest
  | .divider :: rest => readWords r true (if placed then extras ++ ["--"] else extras) rest
  | .unknown text :: rest => readWords r placed (extras ++ [text]) rest
  | .valued s value :: rest => do readWords (← r.set s value) placed extras rest
  | .cluster s letters :: rest => do
    let switches ← Word.expand s letters
    if switches.contains .help then .ok .help
    else readWords (r.raise switches.length) placed extras rest
  | .switch .help :: _ => .ok .help
  | .switch .verbose :: rest => readWords (r.raise 1) placed extras rest
  | .switch s :: .plain value :: rest => do readWords (← r.set s value) placed extras rest
  | .switch s :: _ => .error (.valueExpected s)

/-- What the words of a command line ask for. -/
def readArguments (arguments : List String) : Except UsageError Wish := do
  readWords {} false [] (← Word.ofTexts arguments)

end BoxScript.CommandLine
