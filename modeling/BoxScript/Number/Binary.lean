/-
  The exact value of a number.

  A finite number is `± mantissa · 2 ^ exponent` with a mantissa below `2 ^ 53`
  (`Binary`).  `Binary.ofFloat?` takes it from the bits; `Float.whole?` gives the integer
  that a number is equal to, if there is one.
-/

namespace BoxScript

/-- The finite number `± mantissa · 2 ^ exponent`. -/
structure Binary where
  negative : Bool
  mantissa : Nat
  exponent : Int
  deriving DecidableEq, Repr

/-- The parts of a finite number; `none` for an infinity and for NaN. -/
def Binary.ofFloat? (x : Float) : Option Binary :=
  let bits := x.toBits.toNat
  let negative := bits / Nat.pow 2 63 == 1
  let biased : Nat := bits / Nat.pow 2 52 % Nat.pow 2 11
  let fraction : Nat := bits % Nat.pow 2 52
  if biased = Nat.pow 2 11 - 1 then none
  else if biased = 0 then some ⟨negative, fraction, -1074⟩
  else some ⟨negative, Nat.pow 2 52 + fraction, (biased : Int) - 1075⟩

/-- The absolute value as a fraction: numerator and denominator. -/
def Binary.ratio (b : Binary) : Nat × Nat :=
  (b.mantissa * Nat.pow 2 b.exponent.toNat, Nat.pow 2 (-b.exponent).toNat)

/-- The integer that a finite number is equal to, if it is whole. -/
def Binary.whole? (b : Binary) : Option Int :=
  let (num, den) := b.ratio
  if num % den = 0 then
    some (if b.negative then -((num / den : Nat) : Int) else ((num / den : Nat) : Int))
  else none

namespace Number

/-- The integer that a number is equal to; `none` if it is not whole or not finite. -/
def whole? (x : Float) : Option Int := (Binary.ofFloat? x).bind Binary.whole?

end Number

end BoxScript
