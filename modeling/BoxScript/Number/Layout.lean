/-
  The text of a number.

  * `literal` writes the shortest decimal: positional if the exponent of the leading digit
    is at least -4 and below 16, and else with an exponent of two digits or more;
  * `display` writes a whole number as an integer, all digits of it, and any other number
    as `literal` does.
-/
import BoxScript.Number.Shortest

namespace BoxScript.Number

/-- Where positional writing begins and ends, and how an exponent is written. -/
structure Layout where
  positionalFrom : Int
  positionalBelow : Int
  exponentDigits : Nat

/-- Numbers are written positionally from `0.0001` on and below `10 ^ 16`; an exponent has
    at least two digits. -/
def layout : Layout := ⟨-4, 16, 2⟩

/-- The digits of a decimal without the zeros at its end, and the exponent of the first. -/
def significantDigits (d : Decimal) : List Char × Int :=
  let all := Nat.toDigits 10 d.digits
  let digits := (all.reverse.dropWhile (· == '0')).reverse
  (if digits.isEmpty then ['0'] else digits, d.exponent + all.length - 1)

/-- Digits with a point; the first of them has the exponent `e`. -/
def positional (digits : List Char) (e : Int) : List Char :=
  if e < 0 then '0' :: '.' :: List.replicate (-e - 1).toNat '0' ++ digits
  else
    let before := e.toNat + 1
    let integral := digits.take before ++ List.replicate (before - digits.length) '0'
    let fraction := digits.drop before
    integral ++ '.' :: (if fraction.isEmpty then ['0'] else fraction)

/-- The exponent with its sign and at least `width` digits. -/
def exponentText (width : Nat) (e : Int) : List Char :=
  let digits := Nat.toDigits 10 e.natAbs
  'e' :: (if e < 0 then '-' else '+') ::
    List.replicate (width - digits.length) '0' ++ digits

/-- Digits with an exponent; the first of them has the exponent `e`. -/
def scientific (width : Nat) (digits : List Char) (e : Int) : List Char :=
  match digits with
  | [] => []
  | [d] => d :: exponentText width e
  | d :: rest => d :: '.' :: rest ++ exponentText width e

/-- A decimal in the given layout. -/
def Layout.render (l : Layout) (d : Decimal) : List Char :=
  let (digits, e) := significantDigits d
  if l.positionalFrom ≤ e ∧ e < l.positionalBelow then positional digits e
  else scientific l.exponentDigits digits e

/-- The shortest text that reads back as the number. -/
def literal (x : Float) : String :=
  match Binary.ofFloat? x with
  | some b =>
    let text := layout.render (shortest b)
    String.ofList (if b.negative then '-' :: text else text)
  | none => if x.isNaN then "nan" else if x < 0 then "-inf" else "inf"

/-- The text that `print` shows for a number. -/
def display (x : Float) : String :=
  match whole? x with
  | some n => toString n
  | none => literal x

end BoxScript.Number
