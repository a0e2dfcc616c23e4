/-
  Reading a number from typed text.

  The text, without blanks at its ends, is an optional sign and then either a decimal or
  one of the words `inf`, `infinity` and `nan` in any case.  A decimal is digits with an
  optional point among or beside them, and an optional exponent.  Digits of every script
  count, and a single `_` may stand between two digits.
-/
import BoxScript.Number.Nearest
import BoxScript.Text.Blank
import BoxScript.Text.DecimalDigit

namespace BoxScript.Number

/-- A character of typed text: a digit of any script is read as an ASCII one, and a blank
    beyond ASCII as a space. -/
def plainChar (c : Char) : Char :=
  if c.toNat < 127 then c
  else if Text.isBlank c then ' '
  else match Text.digitValue? c with
    | some d => Char.ofNat ('0'.toNat + d)
    | none => c

/-- The blanks of ASCII that are trimmed from a number. -/
def isPlainBlank (c : Char) : Bool := c == ' ' || ('\t' ≤ c && c ≤ '\r')

/-- The text without each `_` that stands between two digits; `none` if one stands
    elsewhere.  `afterDigit` tells whether a digit comes before the text. -/
def dropUnderscores (afterDigit : Bool) : List Char → Option (List Char)
  | [] => some []
  | '_' :: rest =>
    match afterDigit, rest with
    | true, c :: _ => if c.isDigit then dropUnderscores false rest else none
    | _, _ => none
  | c :: rest => (dropUnderscores c.isDigit rest).map (c :: ·)

/-- The value of a run of ASCII digits. -/
def digitsValue (cs : List Char) : Nat :=
  cs.foldl (fun n c => 10 * n + (c.toNat - '0'.toNat)) 0

/-- Reads a sign: is it a minus, and what follows. -/
def readSign : List Char → Bool × List Char
  | '-' :: rest => (true, rest)
  | '+' :: rest => (false, rest)
  | cs => (false, cs)

/-- Reads what follows the digits and the point of a decimal: nothing, or an exponent. -/
def readExponent? : List Char → Option Int
  | [] => some 0
  | c :: rest =>
    if c = 'e' ∨ c = 'E' then
      let (negative, digits) := readSign rest
      if !digits.isEmpty && digits.all Char.isDigit then
        some (if negative then -(digitsValue digits : Int) else (digitsValue digits : Int))
      else none
    else none

/-- Reads an unsigned decimal. -/
def readDecimal? (negative : Bool) (cs : List Char) : Option Float :=
  let integral := cs.takeWhile Char.isDigit
  let (fraction, rest) := match cs.dropWhile Char.isDigit with
    | '.' :: after => (after.takeWhile Char.isDigit, after.dropWhile Char.isDigit)
    | after => ([], after)
  if integral.isEmpty && fraction.isEmpty then none
  else (readExponent? rest).map fun e =>
    ofDecimal negative (digitsValue (integral ++ fraction)) (e - fraction.length)

/-- Reads one of the words for a number that is not finite. -/
def readWord? (negative : Bool) (cs : List Char) : Option Float :=
  let word := String.ofList (cs.map Char.toLower)
  if word = "inf" ∨ word = "infinity" then some (ofSignedBits negative infinityBits)
  else if word = "nan" then some (Float.ofBits 0x7ff8000000000000)
  else none

/-- The number that a typed text denotes, if it denotes one. -/
def read? (s : String) : Option Float := do
  let plain := s.toList.map plainChar
  let trimmed := ((plain.dropWhile isPlainBlank).reverse.dropWhile isPlainBlank).reverse
  let (negative, body) := readSign (← dropUnderscores false trimmed)
  (readWord? negative body).orElse fun _ => readDecimal? negative body

end BoxScript.Number
