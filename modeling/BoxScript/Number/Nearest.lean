/-
  The number nearest to a fraction or a decimal; a tie goes to the even neighbour, and
  what rounds beyond the greatest finite number is infinite.

  * `Number.nearest` rounds a fraction;
  * `Number.ofDecimal` rounds `± digits · 10 ^ exponent`.
-/

namespace BoxScript.Number

/-- The quotient rounded to an integer, a tie to the even one. -/
def roundQuotient (num den : Nat) : Nat :=
  let q := num / den
  let twice := 2 * (num % den)
  if twice < den then q
  else if den < twice then q + 1
  else q + q % 2

/-- The bits of the infinity, which lie just above those of every finite number. -/
def infinityBits : Nat := (Nat.pow 2 11 - 1) * Nat.pow 2 52

/-- The binary exponent at which the mantissa of `num / den` has 53 bits, and not below
    the least exponent there is. -/
def mantissaExponent (num den : Nat) : Int :=
  let estimate : Int := (num.log2 : Int) - (den.log2 : Int) - 52
  let tooHigh :=
    num * Nat.pow 2 (-estimate).toNat < den * Nat.pow 2 estimate.toNat * Nat.pow 2 52
  max (if tooHigh then estimate - 1 else estimate) (-1074)

/-- The bits of the number nearest to `num / den`.  Read as an integer they grow by one
    from a number to the next, so a mantissa that is rounded up to `2 ^ 53` carries into
    the exponent as it should. -/
def nearestBits (num den : Nat) : Nat :=
  if num = 0 then 0
  else
    let e := mantissaExponent num den
    let m := roundQuotient (num * Nat.pow 2 (-e).toNat) (den * Nat.pow 2 e.toNat)
    min ((e + 1074).toNat * Nat.pow 2 52 + m) infinityBits

/-- The number with the given sign and absolute bits. -/
def ofSignedBits (negative : Bool) (bits : Nat) : Float :=
  Float.ofBits (UInt64.ofNat (if negative then Nat.pow 2 63 + bits else bits))

/-- The number nearest to the fraction `± num / den`. -/
def nearest (negative : Bool) (num den : Nat) : Float :=
  ofSignedBits negative (nearestBits num den)

/-- The number nearest to `± digits · 10 ^ exponent`.  Beyond `10 ^ 400` every decimal is
    infinite, and below `10 ^ -400` it is zero, whatever its digits. -/
def ofDecimal (negative : Bool) (digits : Nat) (exponent : Int) : Float :=
  let magnitude := ((Nat.toDigits 10 digits).length : Int) + exponent
  if digits = 0 ∨ magnitude < -400 then ofSignedBits negative 0
  else if 400 < magnitude then ofSignedBits negative infinityBits
  else nearest negative (digits * Nat.pow 10 exponent.toNat) (Nat.pow 10 (-exponent).toNat)

/-- The number nearest to an integer; `none` if the integer is too large to have one. -/
def ofInt? (n : Int) : Option Float :=
  let x := nearest (n < 0) n.natAbs 1
  if x.isFinite then some x else none

end BoxScript.Number
