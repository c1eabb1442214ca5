import LemonScript.Number.Decimal
import LemonScript.Text.Digit
/-!
# The text of a double

A double is written with the fewest digits that read back, plainly while its first digit stands
between the fourth place behind the point and the sixth before it, and with an exponent otherwise.
The same texts are read back here.
-/

namespace LemonScript

namespace Decimal

/-- The exponents of a first digit from which on an exponent is written. -/
def plainBelow : Int := 6

/-- The least exponent of a first digit that is still written plainly. -/
def plainFrom : Int := -4

/-- A sign and at least two digits. -/
def exponentText (e : Int) : List Char :=
  let digits := Nat.toDigits 10 e.natAbs
  (if e < 0 then '-' else '+') :: (if digits.length < 2 then '0' :: digits else digits)

/-- The digits with a point behind the first `n`; missing digits are zeros, and there is no point
without a digit behind it. -/
def pointed (digits : List Char) (n : Nat) : List Char :=
  let whole := digits.take n ++ List.replicate (n - digits.length) '0'
  match digits.drop n with
  | [] => whole
  | fraction => whole ++ '.' :: fraction

def text (d : Decimal) : List Char :=
  if d.exponent < plainFrom || plainBelow ≤ d.exponent then
    pointed d.digits 1 ++ 'e' :: exponentText d.exponent
  else if d.exponent < 0 then
    '0' :: '.' :: (List.replicate (d.exponent.natAbs - 1) '0' ++ d.digits)
  else pointed d.digits (d.exponent.toNat + 1)

end Decimal

def floatText (x : Float) : String :=
  match Binary64.ofFloat x with
  | .notANumber => "NaN"
  | .infinite negative => if negative then "-Inf" else "+Inf"
  | .finite negative m q =>
    let digits := if m == 0 then ['0'] else (Decimal.shortest m q).text
    String.ofList (if negative then '-' :: digits else digits)

/-- The double nearest to the decimal whose digits stand before and behind the point, or nothing if
it is too large. -/
def floatOfDigits? (whole fraction : List Char) : Option Float :=
  Binary64.ofQuotient? false (decimalValue (whole ++ fraction)) (Nat.pow 10 fraction.length)

def readFloat? (text : String) : Option Float :=
  match text with
  | "NaN" => some Binary64.nan
  | "+Inf" => some (1.0 / 0.0)
  | "-Inf" => some (-(1.0 / 0.0))
  | _ =>
    let cs := text.toList
    let negative := cs.head? == some '-'
    let cs := if negative then cs.tail else cs
    let whole := cs.takeWhile isDigit
    let rest := cs.dropWhile isDigit
    let (fraction, rest) :=
      match rest with
      | '.' :: more => (more.takeWhile isDigit, more.dropWhile isDigit)
      | _ => ([], rest)
    let exponent : Option Int :=
      match rest with
      | [] => some 0
      | 'e' :: '-' :: digits => some (-(decimalValue digits : Int))
      | 'e' :: '+' :: digits => some (decimalValue digits)
      | _ => none
    match whole, exponent with
    | [], _ => none
    | _, none => none
    | _, some e =>
      let power := e - fraction.length
      Binary64.ofQuotient? negative (decimalValue (whole ++ fraction) * Nat.pow 10 power.toNat)
        (Nat.pow 10 (-power).toNat)

end LemonScript
