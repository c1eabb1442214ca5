/-!
# Numbers in base sixteen

Fixed-width texts for escape sequences.
-/

namespace LemonScript

/-- The lower-case digits of `n` in base sixteen, with zeros in front up to `width`. -/
def hexText (width n : Nat) : List Char :=
  let digits := Nat.toDigits 16 n
  List.replicate (width - digits.length) '0' ++ digits

end LemonScript
