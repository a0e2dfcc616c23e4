/-
  Writing JSON documents over several lines: each element and entry on a line of its own,
  two blanks further in than the list or object that holds it.  Only the quote, the
  backslash and the control characters below the space are escaped.
-/
import BoxScript.Json.Basic
import BoxScript.Number.Layout
import BoxScript.Text.Hexadecimal

namespace BoxScript.Json

/-- A character inside a written string. -/
def writtenChar (c : Char) : List Char :=
  if c = '"' ∨ c = '\\' then ['\\', c]
  else if c = '\n' then ['\\', 'n']
  else if c = '\r' then ['\\', 'r']
  else if c = '\t' then ['\\', 't']
  else if c = '\x08' then ['\\', 'b']
  else if c = '\x0c' then ['\\', 'f']
  else if c.toNat < 0x20 then '\\' :: 'u' :: Text.hexDigits 4 c.toNat
  else [c]

/-- A string with its quotes. -/
def writtenText (s : String) : String :=
  String.ofList ('"' :: s.toList.flatMap writtenChar ++ ['"'])

/-- A number with a fraction or an exponent. -/
def writtenNumber (x : Float) : String :=
  if x.isNaN then "NaN"
  else if x.isInf then (if x < 0 then "-Infinity" else "Infinity")
  else Number.literal x

/-- A new line at the given level. -/
def newline (level : Nat) : String := String.ofList ('\n' :: List.replicate (2 * level) ' ')

mutual

/-- A document whose first line stands at the given level. -/
def render (level : Nat) : Json → String
  | null => "null"
  | bool b => if b then "true" else "false"
  | int n => toString n
  | num x => writtenNumber x
  | text s => writtenText s
  | list [] => "[]"
  | list (item :: items) =>
    "[" ++ newline (level + 1) ++ render (level + 1) item ++ renderItems (level + 1) items ++
      newline level ++ "]"
  | object [] => "\x7b\x7d"
  | object ((key, value) :: entries) =>
    "\x7b" ++ newline (level + 1) ++ writtenText key ++ ": " ++ render (level + 1) value ++
      renderEntries (level + 1) entries ++ newline level ++ "\x7d"

/-- The further elements of a list, each after a comma on a line of its own. -/
def renderItems (level : Nat) : List Json → String
  | [] => ""
  | item :: items => "," ++ newline level ++ render level item ++ renderItems level items

/-- The further entries of an object, each after a comma on a line of its own. -/
def renderEntries (level : Nat) : List (String × Json) → String
  | [] => ""
  | (key, value) :: entries =>
    "," ++ newline level ++ writtenText key ++ ": " ++ render level value ++
      renderEntries level entries

end

end BoxScript.Json
