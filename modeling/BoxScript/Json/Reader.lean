/-
  Reading JSON documents.

  `Json.parse` reads one document, with blanks around it.  Besides the standard's documents
  it takes `NaN`, `Infinity` and `-Infinity` for numbers.  It stops at the first character
  that cannot continue a document and says what it expected there (`JsonCause`), or when
  lists and objects are nested deeper than a limit.
-/
import BoxScript.Json.Basic
import BoxScript.Number.Nearest
import BoxScript.Number.Reading
import BoxScript.Position
import BoxScript.Text.Hexadecimal

namespace BoxScript

/-- What is wrong at a place of a JSON text. -/
inductive JsonCause where
  | expectingValue
  | expectingName
  | expectingColon
  | expectingComma
  | extraData
  | unterminatedString
  | invalidEscape
  | invalidNumericEscape
  | controlCharacter
  | byteOrderMark
  deriving DecidableEq, Repr

/-- Why no document was read: a fault at an offset of the text, or too deep nesting. -/
inductive JsonHalt where
  | malformed (cause : JsonCause) (offset : Nat)
  | tooDeep
  deriving DecidableEq, Repr

namespace JsonCause

/-- The wording of a fault. -/
def message : JsonCause → String
  | expectingValue => "Expecting value"
  | expectingName => "Expecting property name enclosed in double quotes"
  | expectingColon => "Expecting ':' delimiter"
  | expectingComma => "Expecting ',' delimiter"
  | extraData => "Extra data"
  | unterminatedString => "Unterminated string starting at"
  | invalidEscape => "Invalid \\escape"
  | invalidNumericEscape => "Invalid \\uXXXX escape"
  | controlCharacter => "Invalid control character at"
  | byteOrderMark => "Unexpected UTF-8 BOM (decode using utf-8-sig)"

/-- The wording of a fault at an offset of a text, with its line and column. -/
def describe (cause : JsonCause) (source : String) (offset : Nat) : String :=
  let place := Position.start.after (source.toList.take offset)
  cause.message ++ ": line " ++ toString place.line ++ " column " ++ toString place.column ++
    " (char " ++ toString offset ++ ")"

end JsonCause

namespace Json

/-- How far a text has been read. -/
structure Reading where
  rest : List Char
  offset : Nat
  deriving DecidableEq, Repr

/-- Reading a part of a text. -/
abbrev Reader := EStateM JsonHalt Reading

namespace Reader

/-- The characters still to be read. -/
def rest : Reader (List Char) := return (← get).rest

/-- The number of characters that were read. -/
def offset : Reader Nat := return (← get).offset

/-- Goes on to after the next `n` characters. -/
def skip (n : Nat) : Reader Unit := modify fun r => ⟨r.rest.drop n, r.offset + n⟩

/-- Stops with a fault at an offset. -/
def failAt {α : Type} (cause : JsonCause) (offset : Nat) : Reader α :=
  throw (.malformed cause offset)

/-- Stops with a fault at the place that was reached. -/
def fail {α : Type} (cause : JsonCause) : Reader α := do failAt cause (← offset)

/-- The blanks of JSON. -/
def isBlank (c : Char) : Bool := c == ' ' || c == '\t' || c == '\n' || c == '\r'

/-- Goes on to after the blanks. -/
def skipBlanks : Reader Unit := do skip ((← rest).takeWhile isBlank).length

/-! ## Strings -/

/-- What a letter after a backslash stands for. -/
def escaped? : Char → Option Char
  | '"' => some '"'
  | '\\' => some '\\'
  | '/' => some '/'
  | 'b' => some '\x08'
  | 'f' => some '\x0c'
  | 'n' => some '\n'
  | 'r' => some '\r'
  | 't' => some '\t'
  | _ => none

/-- The value of four hexadecimal digits. -/
def quadValue? (a b c d : Char) : Option Nat := do
  return ((← Text.hexValue? a) * 16 + (← Text.hexValue? b)) * 256 +
    ((← Text.hexValue? c) * 16 + (← Text.hexValue? d))

/-- Reads a string from after its opening quote, which stands at `start`, up to its closing
    quote: the numbers of its characters and the reading after it.  `done` holds the numbers
    of those already read, the last one first.  An escaped character beyond the first plane
    comes as two numbers. -/
def stringUnits (start : Nat) : List Nat → Nat → List Char → Except JsonHalt (List Nat × Reading)
  | _, _, [] => .error (.malformed .unterminatedString start)
  | done, n, '"' :: rest => .ok (done.reverse, ⟨rest, n + 1⟩)
  | _, _, ['\\'] => .error (.malformed .unterminatedString start)
  | done, n, '\\' :: 'u' :: a :: b :: c :: d :: rest =>
    match rest, quadValue? a b c d with
    | _ :: _, some unit => stringUnits start (unit :: done) (n + 6) rest
    | _, _ => .error (.malformed .invalidNumericEscape (n + 1))
  | done, n, '\\' :: letter :: rest =>
    if letter = 'u' then .error (.malformed .invalidNumericEscape (n + 1))
    else match escaped? letter with
      | some c => stringUnits start (c.toNat :: done) (n + 2) rest
      | none => .error (.malformed .invalidEscape n)
  | done, n, c :: rest =>
    if c.toNat < 0x20 then .error (.malformed .controlCharacter n)
    else stringUnits start (c.toNat :: done) (n + 1) rest

/-- Joins each pair of surrogates to the character that it stands for. -/
def joinSurrogates : List Nat → List Char
  | [] => []
  | [unit] => [Char.ofNat unit]
  | high :: low :: rest =>
    if 0xD800 ≤ high ∧ high < 0xDC00 ∧ 0xDC00 ≤ low ∧ low < 0xE000 then
      Char.ofNat (0x10000 + (high - 0xD800) * 0x400 + (low - 0xDC00)) :: joinSurrogates rest
    else Char.ofNat high :: joinSurrogates (low :: rest)

/-- Reads a string, whose opening quote comes next. -/
def string : Reader String := do
  let start ← offset
  match stringUnits start [] (start + 1) ((← rest).drop 1) with
  | .ok (units, after) =>
    set after
    return String.ofList (joinSurrogates units)
  | .error halt => throw halt

/-! ## Numbers and words -/

/-- The length of a point with digits after it, at the beginning of a text. -/
def fractionLength : List Char → Nat
  | '.' :: cs => match (cs.takeWhile Char.isDigit).length with
    | 0 => 0
    | n => n + 1
  | _ => 0

/-- The length of an exponent at the beginning of a text. -/
def exponentLength : List Char → Nat
  | c :: cs =>
    if c = 'e' ∨ c = 'E' then
      let sign := match cs with
        | '+' :: _ | '-' :: _ => 1
        | _ => 0
      match ((cs.drop sign).takeWhile Char.isDigit).length with
      | 0 => 0
      | n => 1 + sign + n
    else 0
  | [] => 0

/-- The length of the digits of an integer at the beginning of a text: a zero alone, or
    digits that do not begin with one. -/
def integerLength (cs : List Char) : Nat :=
  match cs with
  | '0' :: _ => 1
  | _ => (cs.takeWhile Char.isDigit).length

/-- Reads a number. -/
def number : Reader Json := do
  let cs ← rest
  let (negative, unsigned) := match cs with
    | '-' :: more => (true, more)
    | _ => (false, cs)
  let integral := integerLength unsigned
  if integral = 0 then fail .expectingValue
  else
    let fraction := fractionLength (unsigned.drop integral)
    let exponent := exponentLength (unsigned.drop (integral + fraction))
    skip ((if negative then 1 else 0) + integral + fraction + exponent)
    if fraction + exponent = 0 then
      let n : Int := Number.digitsValue (unsigned.take integral)
      return .int (if negative then -n else n)
    else
      match Number.readDecimal? negative (unsigned.take (integral + fraction + exponent)) with
      | some x => return .num x
      | none => fail .expectingValue

/-- The documents that are written as a word. -/
def words : List (String × Json) :=
  [("null", .null), ("true", .bool true), ("false", .bool false),
   ("NaN", .num (Float.ofBits 0x7ff8000000000000)),
   ("Infinity", .num (Number.ofSignedBits false Number.infinityBits)),
   ("-Infinity", .num (Number.ofSignedBits true Number.infinityBits))]

/-- Reads a word or a number. -/
def scalar : Reader Json := do
  let cs ← rest
  match words.find? fun (word, _) => word.toList.isPrefixOf cs with
  | some (word, value) =>
    skip word.length
    return value
  | none => number

/-! ## Lists, objects and documents -/

/-- Does the character `c` come next? -/
def nextIs (c : Char) : Reader Bool := return (← rest).head? == some c

/-- Reads the elements of a list and its closing bracket, if an element comes next; `done`
    holds the elements before it, the last one first.  At most `rounds` are read. -/
def elements (value : Reader Json) : (rounds : Nat) → List Json → Reader (List Json)
  | 0, done => return done.reverse
  | rounds + 1, done => do
    let item ← value
    skipBlanks
    if ← nextIs ']' then
      skip 1
      return (item :: done).reverse
    else if ← nextIs ',' then
      skip 1
      skipBlanks
      elements value rounds (item :: done)
    else fail .expectingComma

/-- Reads the entries of an object and its closing brace, if an entry comes next; `done`
    holds the entries before it.  At most `rounds` are read. -/
def entries (value : Reader Json) :
    (rounds : Nat) → List (String × Json) → Reader (List (String × Json))
  | 0, done => return done
  | rounds + 1, done => do
    if !(← nextIs '"') then fail .expectingName
    let key ← string
    skipBlanks
    if !(← nextIs ':') then fail .expectingColon
    skip 1
    skipBlanks
    let item ← value
    skipBlanks
    let done := Json.insert done key item
    if ← nextIs '}' then
      skip 1
      return done
    else if ← nextIs ',' then
      skip 1
      skipBlanks
      entries value rounds done
    else fail .expectingComma

/-- Reads a document; `deeper` reads those inside it. -/
def valueStep (deeper : Reader Json) : Reader Json := do
  match (← rest).head? with
  | some '"' => return .text (← string)
  | some '[' =>
    skip 1
    skipBlanks
    if ← nextIs ']' then
      skip 1
      return .list []
    else return .list (← elements deeper (← rest).length.succ [])
  | some '{' =>
    skip 1
    skipBlanks
    if ← nextIs '}' then
      skip 1
      return .object []
    else return .object (← entries deeper (← rest).length.succ [])
  | _ => scalar

/-- Reads a document that is nested at most `depth` deep. -/
def value : (depth : Nat) → Reader Json
  | 0 => throw .tooDeep
  | depth + 1 => valueStep (value depth)

/-- Reads a whole text. -/
def document (depth : Nat) : Reader Json := do
  if ← nextIs '\ufeff' then fail .byteOrderMark
  skipBlanks
  let doc ← value depth
  skipBlanks
  if !(← rest).isEmpty then fail .extraData
  return doc

end Reader

/-- The document of a text, nested at most `depth` deep. -/
def parse (depth : Nat) (source : String) : Except JsonHalt Json :=
  match Reader.document depth ⟨source.toList, 0⟩ with
  | .ok doc _ => .ok doc
  | .error halt _ => .error halt

end Json

end BoxScript
