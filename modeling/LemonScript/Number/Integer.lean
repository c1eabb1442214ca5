import LemonScript.Text.Digit
/-!
# Integers with a base

An integer may have a sign, and its first digits may name a base: sixteen, eight or two.
-/

namespace LemonScript

def signed : List Char → Bool × List Char
  | '-' :: rest => (true, rest)
  | '+' :: rest => (false, rest)
  | text => (false, text)

def inBase? (base : Nat) (digits : List Char) : Option Nat :=
  if !digits.isEmpty && digits.all (fun c => isHexDigit c && hexValue c < base) then
    some (digits.foldl (fun n c => base * n + hexValue c) 0)
  else none

/-- A number without a sign, in the base that its first digits name. -/
def magnitude? : List Char → Option Nat
  | ['0'] => some 0
  | '0' :: c :: rest =>
    if c == 'x' || c == 'X' then inBase? 16 rest
    else if c == 'o' || c == 'O' then inBase? 8 rest
    else if c == 'b' || c == 'B' then inBase? 2 rest
    else inBase? 8 (c :: rest)
  | digits => inBase? 10 digits

def underscoresFit (isDigit : Char → Bool) (afterDigit : Bool) : List Char → Bool
  | [] => true
  | '_' :: c :: rest => afterDigit && isDigit c && underscoresFit isDigit true rest
  | c :: rest => c != '_' && underscoresFit isDigit (isDigit c) rest

/-- Whether the underscores of a number without a sign stand between its digits; the mark of a base
counts as one. -/
def isSpaced : List Char → Bool
  | '0' :: c :: rest =>
    if c == 'x' || c == 'X' then underscoresFit isHexDigit true rest
    else if "oObB".toList.contains c then underscoresFit isDigit true rest
    else underscoresFit isDigit true (c :: rest)
  | digits => underscoresFit isDigit false digits

/-- Reads an integer of 64 bits. -/
def int64? (text : String) : Option Int :=
  let (negative, rest) := signed text.toList
  if isSpaced rest then
    match magnitude? (rest.filter (· != '_')) with
    | some n =>
      if negative then if n ≤ Nat.pow 2 63 then some (-(n : Int)) else none
      else if n < Nat.pow 2 63 then some n else none
    | none => none
  else none

end LemonScript
