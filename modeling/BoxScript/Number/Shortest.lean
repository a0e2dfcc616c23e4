/-
  The shortest decimal of a number: the fewest digits that read back as it.

  The decimals that read back as a finite number fill an interval around it; its ends
  belong to it if the mantissa is even (`ReadingInterval`).  For one digit, two, and so on
  up to 17, `shortest` tries the two neighbours of the number on the grid of decimals with
  so many digits.  The first grid with a neighbour in the interval wins; of two neighbours
  the nearer one is taken, and of two equally near ones the even one.
-/
import BoxScript.Number.Binary

namespace BoxScript.Number

/-- The decimal `digits · 10 ^ exponent`. -/
structure Decimal where
  digits : Nat
  exponent : Int
  deriving DecidableEq, Repr

/-- A number times `2 ^ scale`: the number itself, and the ends of the interval of
    decimals that read back as it. -/
structure ReadingInterval where
  low : Nat
  value : Nat
  high : Nat
  scale : Int
  closed : Bool
  deriving DecidableEq, Repr

/-- The interval of a number.  Half a step down from a power of two is half as wide as
    half a step up. -/
def ReadingInterval.ofBinary (b : Binary) : ReadingInterval :=
  let m := 4 * b.mantissa
  let stepDown := if b.mantissa = Nat.pow 2 52 ∧ -1074 < b.exponent then 1 else 2
  ⟨m - stepDown, m, m + 2, b.exponent - 2, b.mantissa % 2 == 0⟩

/-- The order of `n · 2 ^ scale` and `d.digits · 10 ^ d.exponent`. -/
def compareScaled (n : Nat) (scale : Int) (d : Decimal) : Ordering :=
  compare (n * Nat.pow 2 scale.toNat * Nat.pow 10 (-d.exponent).toNat)
    (d.digits * Nat.pow 10 d.exponent.toNat * Nat.pow 2 (-scale).toNat)

/-- Does the decimal read back as the interval's number? -/
def ReadingInterval.holds (i : ReadingInterval) (d : Decimal) : Bool :=
  let low := compareScaled i.low i.scale d
  let high := compareScaled i.high i.scale d
  if i.closed then low != .gt && high != .lt else low == .lt && high == .gt

/-- The exponent of the leading decimal digit of `num / den`. -/
def leadingExponent (num den : Nat) : Int :=
  let estimate : Int := (Nat.toDigits 10 num).length - (Nat.toDigits 10 den).length
  if num * Nat.pow 10 (-estimate).toNat < den * Nat.pow 10 estimate.toNat then estimate - 1
  else estimate

/-- Of two neighbours on a grid the one to write for the interval's number, if one reads
    back: the nearer one, and of two equally near ones the even one. -/
def ReadingInterval.choose (i : ReadingInterval) (below above : Decimal) : Option Decimal :=
  match i.holds below, i.holds above with
  | false, false => none
  | true, false => some below
  | false, true => some above
  | true, true =>
    let middle : Decimal := ⟨below.digits + above.digits, below.exponent⟩
    match compareScaled (2 * i.value) i.scale middle with
    | .lt => some below
    | .gt => some above
    | .eq => some (if below.digits % 2 = 0 then below else above)

/-- The decimal of the first grid with a hit, from `count` digits on; `rounds` grids are
    tried. -/
def shortestFrom (i : ReadingInterval) (num den : Nat) (leading : Int) :
    (rounds count : Nat) → Option Decimal
  | 0, _ => none
  | rounds + 1, count =>
    let e := leading - (count - 1 : Nat)
    let below := num * Nat.pow 10 (-e).toNat / (den * Nat.pow 10 e.toNat)
    (i.choose ⟨below, e⟩ ⟨below + 1, e⟩).orElse fun _ =>
      shortestFrom i num den leading rounds (count + 1)

/-- The shortest decimal that reads back as the number; zero for zero. -/
def shortest (b : Binary) : Decimal :=
  if b.mantissa = 0 then ⟨0, 0⟩
  else
    let (num, den) := b.ratio
    (shortestFrom (.ofBinary b) num den (leadingExponent num den) 17 1).getD ⟨0, 0⟩

end BoxScript.Number
