/-
  Malformed lexemes: `LexError` gives the cause and the place, `LexError.report` the
  wording.
-/
import BoxScript.Position
import BoxScript.Report
import BoxScript.Text.Quoted

namespace BoxScript

/-- Why a text cannot be split into tokens. -/
inductive LexCause where
  | unterminatedComment
  | unterminatedString
  | invalidEscape (letter : Char)
  | secondPoint
  | lonePoint
  | unexpectedCharacter (c : Char)
  deriving DecidableEq, Repr

/-- The first malformed lexeme of a text, with the place to look at. -/
structure LexError where
  cause : LexCause
  place : Position
  deriving DecidableEq, Repr

namespace LexCause

/-- The name under which the error is reported. -/
def name : LexCause → String
  | unterminatedComment => "UnterminatedComment"
  | unterminatedString => "UnterminatedString"
  | invalidEscape _ => "InvalidEscape"
  | secondPoint | lonePoint => "MalformedNumber"
  | unexpectedCharacter _ => "UnexpectedCharacter"

/-- The wording of the error. -/
def message : LexCause → String
  | unterminatedComment => "unterminated block comment"
  | unterminatedString => "unterminated string literal"
  | invalidEscape c => "invalid escape sequence '\\" ++ c.toString ++ "'"
  | secondPoint => "number has more than one decimal point"
  | lonePoint => "standalone '.' is not a number"
  | unexpectedCharacter c => "unexpected character " ++ Text.quoted c.toString

end LexCause

/-- The error as a user reads it. -/
def LexError.report (e : LexError) : Report where
  name := e.cause.name
  message := e.cause.message
  line := some e.place.line
  column := some e.place.column

end BoxScript
