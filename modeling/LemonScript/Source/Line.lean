/-!
# Lines of a source

Where the lines of a source begin is noted in one pass over its characters. The line of an offset is
then found by halving: all lines up to it begin at or before the offset, and all lines behind it do
not.
-/

namespace LemonScript

/-- The first number from `low` on at which a test succeeds, or `high` if it fails at all numbers below
that; behind a success the test has to succeed too. -/
def bisect (test : Nat → Bool) (low high : Nat) : Nat :=
  if low < high then
    let middle := (low + high) / 2
    if test middle then bisect test low middle else bisect test (middle + 1) high
  else low
termination_by high - low

/-- Adds the offsets behind the newlines of a text that begins at `offset`. -/
def addLineStarts (starts : Array Nat) (offset : Nat) : List Char → Array Nat
  | [] => starts
  | c :: cs => addLineStarts (if c == '\n' then starts.push (offset + 1) else starts) (offset + 1) cs

def lineStarts (source : List Char) : Array Nat :=
  addLineStarts #[0] 0 source

/-- The number of the line that an offset is in; the first line has the number 0. -/
def lineNumber (starts : Array Nat) (offset : Nat) : Nat :=
  bisect (fun i => starts[i]?.any (offset < ·)) 0 starts.size - 1

end LemonScript
