/-
  Quoted text, as messages show a piece of source or a text value.

  A text stands between single quotes, or between double quotes if it holds a single
  quote and no double one.  The backslash and the chosen quote are escaped, the line
  feed, carriage return and tab have letters of their own, and a character that is not
  printable is shown by its number in two, four or eight hexadecimal digits.
-/
import BoxScript.Text.Hexadecimal
import BoxScript.Text.Printable

namespace BoxScript.Text

/-- The quote that `quoted` puts around the text `cs`. -/
def quoteFor (cs : List Char) : Char :=
  if cs.contains '\'' && !cs.contains '"' then '"' else '\''

/-- The number of a character as an escape: two, four or eight hexadecimal digits. -/
def numericEscape (c : Char) : List Char :=
  let n := c.toNat
  if n < 0x100 then '\\' :: 'x' :: hexDigits 2 n
  else if n < 0x10000 then '\\' :: 'u' :: hexDigits 4 n
  else '\\' :: 'U' :: hexDigits 8 n

/-- One character of a text quoted with `quote`. -/
def quotedChar (quote c : Char) : List Char :=
  if c = quote ∨ c = '\\' then ['\\', c]
  else if c = '\n' then ['\\', 'n']
  else if c = '\r' then ['\\', 'r']
  else if c = '\t' then ['\\', 't']
  else if isPrintable c then [c]
  else numericEscape c

/-- The text with quotes around it and escapes in it. -/
def quoted (s : String) : String :=
  let cs := s.toList
  let quote := quoteFor cs
  String.ofList (quote :: cs.flatMap (quotedChar quote) ++ [quote])

end BoxScript.Text
