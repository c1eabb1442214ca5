/-!
# Doubles as exact numbers

A finite double is a significand times a power of two. This module takes a double apart into these
parts, rounds a quotient of naturals to the nearest double, and computes the remainder of two
doubles exactly.
-/

namespace LemonScript

/-- What a double stands for. A finite one has the absolute value `significand * 2 ^ exponent`. -/
inductive Binary64
  | notANumber
  | infinite (negative : Bool)
  | finite (negative : Bool) (significand : Nat) (exponent : Int)
deriving Repr, DecidableEq

namespace Binary64

/-- The significand of a normal double lies between this and its double. -/
def hiddenBit : Nat := Nat.pow 2 52

def minExponent : Int := -1074

/-- Takes a double apart. -/
def ofFloat (x : Float) : Binary64 :=
  let bits := x.toBits.toNat
  let negative := bits / Nat.pow 2 63 == 1
  let biased := bits / hiddenBit % 2048
  let fraction := bits % hiddenBit
  if biased == 2047 then
    if fraction == 0 then infinite negative else notANumber
  else if biased == 0 then finite negative fraction minExponent
  else finite negative (hiddenBit + fraction) (biased - 1075)

/-- The natural nearest to `num / den`; a half goes to the even neighbour. -/
def roundQuotient (num den : Nat) : Nat :=
  let q := num / den
  let r := num % den
  if 2 * r < den then q
  else if den < 2 * r then q + 1
  else q + q % 2

def scaled (num den : Nat) (e : Int) : Nat × Nat :=
  (num * Nat.pow 2 (-e).toNat, den * Nat.pow 2 e.toNat)

/-- The exponent at which `num / den` has a significand of 53 bits, or the least exponent. -/
def exponentOf (num den : Nat) : Int :=
  let guess : Int := num.log2 - den.log2 - 52
  let (n, d) := scaled num den guess
  max minExponent (if n < hiddenBit * d then guess - 1 else guess)

/-- The bits of the positive double `significand * 2 ^ exponent`. A significand of 54 bits carries
into the exponent. -/
def bitsOf (significand : Nat) (exponent : Int) : Nat :=
  if significand < hiddenBit then significand
  else (exponent + 1075).toNat * hiddenBit + (significand - hiddenBit)

/-- The double nearest to `num / den` with the given sign, or nothing if that is beyond the largest
finite one. -/
def ofQuotient? (negative : Bool) (num den : Nat) : Option Float :=
  let sign := if negative then Nat.pow 2 63 else 0
  if num == 0 then some (Float.ofBits (UInt64.ofNat sign))
  else
    let e := exponentOf num den
    let (n, d) := scaled num den e
    let bits := bitsOf (roundQuotient n d) e
    if bits < 2047 * hiddenBit then some (Float.ofBits (UInt64.ofNat (sign + bits))) else none

/-- The double nearest to an integer; infinite if it is beyond the largest finite one. -/
def ofInt (i : Int) : Float :=
  match ofQuotient? (i < 0) i.natAbs 1 with
  | some x => x
  | none => if i < 0 then -(1.0 / 0.0) else 1.0 / 0.0

def nan : Float := 0.0 / 0.0

/-- The remainder of the division that truncates toward zero. It is exact and has the sign of the
dividend. -/
def remainder (x y : Float) : Float :=
  match ofFloat x, ofFloat y with
  | finite negative m e, finite _ m' e' =>
    if m' == 0 then nan
    else
      let low := min e e'
      let r := (m * Nat.pow 2 (e - low).toNat) % (m' * Nat.pow 2 (e' - low).toNat)
      (ofQuotient? negative (r * Nat.pow 2 low.toNat) (Nat.pow 2 (-low).toNat)).getD nan
  | finite .., infinite _ => x
  | _, _ => nan

end Binary64

end LemonScript
