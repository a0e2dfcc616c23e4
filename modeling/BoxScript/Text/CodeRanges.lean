/-
  Sets of code points as tables of ranges.

  * `CodeRanges` is a list of inclusive ranges, lowest first;
  * `CodeRanges.contains` looks a code point up, and stops at the first range that
    begins above it.
-/

namespace BoxScript

/-- Code points as inclusive ranges, lowest first. -/
abbrev CodeRanges := List (Nat × Nat)

/-- Does a range of the table hold the code point `n`? -/
def CodeRanges.contains : CodeRanges → Nat → Bool
  | [], _ => false
  | (lo, hi) :: rest, n => if n < lo then false else n ≤ hi || CodeRanges.contains rest n

end BoxScript
