import LemonScript.Number.FloatText
import LemonScript.Number.Integer
/-!
# What plain scalars stand for

A scalar without quotes is null, a truth value, a number or a time if it is spelled like one, and text
otherwise.
-/

namespace LemonScript.Yaml

/-- What a plain scalar stands for. -/
inductive Resolved
  | null
  | bool (value : Bool)
  | int (value : Int)
  | float (value : Float)
  | time
  | text
deriving Inhabited

def Resolved.isText : Resolved → Bool
  | text => true
  | _ => false

def nullWords : List String := ["", "~", "null", "Null", "NULL"]

def trueWords : List String :=
  ["y", "Y", "yes", "Yes", "YES", "true", "True", "TRUE", "on", "On", "ON"]

def falseWords : List String :=
  ["n", "N", "no", "No", "NO", "false", "False", "FALSE", "off", "Off", "OFF"]

def nanWords : List String := [".nan", ".NaN", ".NAN"]

def infinityWords : List String :=
  [".inf", ".Inf", ".INF", "+.inf", "+.Inf", "+.INF"]

def minusInfinityWords : List String := ["-.inf", "-.Inf", "-.INF"]

def word? (text : String) : Option Resolved :=
  if nullWords.contains text then some .null
  else if trueWords.contains text then some (.bool true)
  else if falseWords.contains text then some (.bool false)
  else if nanWords.contains text then some (.float Binary64.nan)
  else if infinityWords.contains text then some (.float (1.0 / 0.0))
  else if minusInfinityWords.contains text then some (.float (-1.0 / 0.0))
  else none

/-! ### Numbers -/

/-- An integer of 64 bits; one without a sign may use the bit of the sign for its value. -/
def int? (text : List Char) : Option Int :=
  let (negative, rest) := signed text
  match magnitude? rest with
  | none => none
  | some n =>
    if negative then if n ≤ Nat.pow 2 63 then some (-(n : Int)) else none
    else if n < Nat.pow 2 63 then some n
    else if rest == text && n < Nat.pow 2 64 then some n
    else none

/-- A number in scientific notation as a double; one that is too large for a double is none. -/
def scientific? (negative : Bool) (whole fraction : List Char) (exponent : Int) : Option Float :=
  let n := decimalValue (whole ++ fraction)
  let e := exponent - fraction.length
  let size : Int := (Nat.toDigits 10 n).length
  if n == 0 || e + size < -400 then Binary64.ofQuotient? negative 0 1
  else if e + size > 400 then none
  else if 0 ≤ e then Binary64.ofQuotient? negative (n * Nat.pow 10 e.toNat) 1
  else Binary64.ofQuotient? negative n (Nat.pow 10 e.natAbs)

/-- Reads a number in decimal digits, perhaps with a point among or beside them and an exponent. -/
def float? (text : List Char) : Option Float :=
  let (negative, rest) := signed text
  let whole := rest.takeWhile isDigit
  let rest := rest.dropWhile isDigit
  let (fraction, rest) :=
    match rest with
    | '.' :: rest => (rest.takeWhile isDigit, rest.dropWhile isDigit)
    | _ => ([], rest)
  if whole.isEmpty && fraction.isEmpty then none
  else
    match rest with
    | [] => scientific? negative whole fraction 0
    | c :: rest =>
      let (minus, digits) := signed rest
      if (c == 'e' || c == 'E') && !digits.isEmpty && digits.all isDigit then
        let exponent : Int := decimalValue digits
        scientific? negative whole fraction (if minus then -exponent else exponent)
      else none

/-- Reads an integer in base two whose sign stands behind the mark of the base. -/
def markedBinary? : List Char → Option Int
  | '0' :: 'b' :: rest =>
    let (negative, digits) := signed rest
    match inBase? 2 digits with
    | none => none
    | some n =>
      if negative then if n ≤ Nat.pow 2 63 then some (-(n : Int)) else none
      else if n < Nat.pow 2 63 then some n
      else none
  | _ => none

/-! ### Times -/

/-- A number of one or two digits at the start of a text, and the rest. -/
def shortNumber? : List Char → Option (Nat × List Char)
  | a :: b :: rest =>
    if isDigit a && isDigit b then some (decimalValue [a, b], rest)
    else if isDigit a then some (decimalValue [a], b :: rest)
    else none
  | [a] => if isDigit a then some (decimalValue [a], []) else none
  | [] => none

def isLeapYear (year : Nat) : Bool :=
  year % 4 == 0 && (year % 100 != 0 || year % 400 == 0)

def daysIn (year month : Nat) : Nat :=
  if month == 2 then if isLeapYear year then 29 else 28
  else if [4, 6, 9, 11].contains month then 30
  else 31

def date? (text : List Char) : Option (List Char) := do
  let year := text.takeWhile isDigit
  guard (year.length == 4)
  match text.drop 4 with
  | '-' :: rest =>
    let (month, rest) ← shortNumber? rest
    guard (1 ≤ month && month ≤ 12)
    match rest with
    | '-' :: rest =>
      let (day, rest) ← shortNumber? rest
      guard (1 ≤ day && day ≤ daysIn (decimalValue year) month)
      return rest
    | _ => none
  | _ => none

/-- The rest behind a time of day, if a text begins with one. -/
def clock? (text : List Char) : Option (List Char) := do
  let (hour, rest) ← shortNumber? text
  guard (hour < 24)
  match rest with
  | ':' :: rest =>
    let (minute, rest) ← shortNumber? rest
    guard (minute < 60)
    match rest with
    | ':' :: rest =>
      let (second, rest) ← shortNumber? rest
      guard (second < 60)
      match rest with
      | p :: c :: more =>
        return if (p == '.' || p == ',') && isDigit c then more.dropWhile isDigit else rest
      | _ => return rest
    | _ => none
  | _ => none

/-- Whether a text names a time zone. -/
def isZone : List Char → Bool
  | ['Z'] => true
  | [s, a, b, ':', c, d] =>
    (s == '+' || s == '-') && [a, b, c, d].all isDigit
      && decimalValue [a, b] ≤ 24 && decimalValue [c, d] ≤ 60
  | _ => false

def isTime (text : List Char) : Bool :=
  match date? text with
  | none => false
  | some [] => true
  | some (' ' :: rest) => clock? (rest.dropWhile (· == ' ')) == some []
  | some (c :: rest) => (c == 'T' || c == 't') && (clock? rest).any isZone

/-! ### Scalars -/

def number (text : List Char) : Resolved :=
  let plain := text.filter (· != '_')
  if isTime text then .time
  else
    match int? plain with
    | some n => .int n
    | none =>
      match float? plain with
      | some x => .float x
      | none =>
        match markedBinary? plain with
        | some n => .int n
        | none => .text

/-- What a plain scalar stands for. -/
def resolve (text : String) : Resolved :=
  match word? text with
  | some r => r
  | none =>
    match text.toList with
    | [] => .null
    | c :: rest =>
      if isDigit c || c == '+' || c == '-' then number (c :: rest)
      else if c == '.' then
        match float? ((c :: rest).filter (· != '_')) with
        | some x => if underscoresFit isDigit false rest then .float x else .text
        | none => .text
      else .text

/-- Whether the rest of a text is made of groups of sixty, perhaps with a point behind them. -/
def isSexagesimalTail : List Char → Bool
  | [] => true
  | ':' :: c :: rest =>
    match rest with
    | d :: more =>
      if isDigit c && isDigit d then c ≤ '5' && isSexagesimalTail more
      else isDigit c && isSexagesimalTail (d :: more)
    | [] => isDigit c
  | '.' :: rest => rest.all fun c => isDigit c || c == '_'
  | _ => false

/-- Whether a text could be read as a number of base sixty. -/
def isSexagesimal (text : List Char) : Bool :=
  match (signed text).2 with
  | c :: rest =>
    let tail := rest.dropWhile fun c => isDigit c || c == '_'
    isDigit c && tail.head? == some ':' && isSexagesimalTail tail
  | [] => false

end LemonScript.Yaml
