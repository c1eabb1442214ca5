import LemonScript.Number.Binary64
/-!
# The shortest decimal of a double

A positive finite double is the nearest one to every number of an interval around it. Of the
decimals in that interval this module finds the one with the fewest digits, and among those the
nearest to the double.
-/

namespace LemonScript

/-- The decimal `d.ddd * 10 ^ exponent`, whose digits do not end in zero. -/
structure Decimal where
  digits : List Char
  exponent : Int
deriving Repr, DecidableEq

namespace Decimal

/-- The numbers that round to one double, as multiples of a quarter of the unit in its last place:
the double itself, the two ends, and whether the ends belong to it. -/
structure Interval where
  value : Nat
  low : Nat
  high : Nat
  closed : Bool

/-- The interval of `m * 2 ^ q`, in units of `2 ^ (q - 2)`. Below a power of two the doubles stand
twice as close. -/
def interval (m : Nat) (q : Int) : Interval where
  value := 4 * m
  low := 4 * m - if m == Binary64.hiddenBit && Binary64.minExponent < q then 1 else 2
  high := 4 * m + 2
  closed := m % 2 == 0

/-- The grid of the multiples of `10 ^ p`, seen from units of `2 ^ e`: `k * 10 ^ p` and
`n * 2 ^ e` compare as `k * tens` and `n * twos`. -/
structure Grid where
  tens : Nat
  twos : Nat

def grid (p e : Int) : Grid where
  tens := Nat.pow 10 p.toNat * Nat.pow 2 (-e).toNat
  twos := Nat.pow 10 (-p).toNat * Nat.pow 2 e.toNat

def Grid.hits (g : Grid) (i : Interval) (k : Nat) : Bool :=
  if i.closed then i.low * g.twos ≤ k * g.tens && k * g.tens ≤ i.high * g.twos
  else i.low * g.twos < k * g.tens && k * g.tens < i.high * g.twos

/-- The nearer of the two neighbours `k` and `k + 1` of the interval's value; a tie goes to the
even one. -/
def Grid.nearer (g : Grid) (i : Interval) (k : Nat) : Nat :=
  let below := i.value * g.twos - k * g.tens
  let above := (k + 1) * g.tens - i.value * g.twos
  if below < above then k
  else if above < below then k + 1
  else k + k % 2

/-- The point of the grid that stands for the interval, if one of the value's two neighbours lies
in it. -/
def Grid.pick? (g : Grid) (i : Interval) : Option Nat :=
  let k := i.value * g.twos / g.tens
  match g.hits i k, g.hits i (k + 1) with
  | true, true => some (g.nearer i k)
  | true, false => some k
  | false, true => some (k + 1)
  | false, false => none

def leadingExponent (m : Nat) (q : Int) : Int :=
  let guess := Int.fdiv ((m.log2 + q) * 30103) 100000
  let g := grid (guess + 1) q
  if g.tens ≤ m * g.twos then guess + 1 else guess

def ofScaled (k : Nat) (p : Int) : Decimal :=
  let digits := Nat.toDigits 10 k
  { digits := (digits.reverse.dropWhile (· == '0')).reverse
    exponent := p + digits.length - 1 }

/-- Looks for a decimal with `count` digits, then with one more, until none are left to try. -/
def search (i : Interval) (leading e : Int) (count : Nat) : Nat → Decimal
  | 0 => ofScaled (i.value * (grid (leading - count) e).twos / (grid (leading - count) e).tens) (leading - count)
  | left + 1 =>
    let p := leading - count
    match (grid p e).pick? i with
    | some k => ofScaled k p
    | none => search i leading e (count + 1) left

/-- The shortest decimal that rounds to `m * 2 ^ q`; seventeen digits always do. -/
def shortest (m : Nat) (q : Int) : Decimal :=
  search (interval m q) (leadingExponent m q) (q - 2) 0 17

end Decimal

end LemonScript
