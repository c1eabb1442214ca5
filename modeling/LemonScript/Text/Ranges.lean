/-!
# Sets of code points

A character class is a list of closed ranges of code points in ascending order, so that a look-up
can stop at the first range that begins above the code point.
-/

namespace LemonScript

/-- Whether `n` lies in one of the ranges, which stand in ascending order. -/
def inRanges (n : Nat) : List (Nat × Nat) → Bool
  | [] => false
  | (low, high) :: rest =>
    if n < low then false
    else if n ≤ high then true
    else inRanges n rest

/-- The ranges of the code points from `next` on, of which some are left out and some are in, by turns. -/
def rangesFrom (next : Nat) : List Nat → List (Nat × Nat)
  | out :: size :: rest => (next + out, next + out + size - 1) :: rangesFrom (next + out + size) rest
  | _ => []

end LemonScript
