import LemonScript.Text.Digit
import LemonScript.Text.JsonString
/-!
# JSON values and how they are read

A text is read as one value with nothing but blanks around it. A lone half of a surrogate pair
stands for the replacement character, and values may be nested ten thousand deep.
-/

namespace LemonScript

/-- A JSON value. A number is kept as it is spelled, and the members of an object in order. -/
inductive JsonValue
  | null
  | bool (value : Bool)
  | number (spelling : List Char)
  | string (value : String)
  | array (items : List JsonValue)
  | object (members : List (String × JsonValue))
deriving Inhabited

namespace JsonValue

/-- How deep arrays and objects may be nested. -/
def maxDepth : Nat := 10000

def isJsonBlank (c : Char) : Bool :=
  c == ' ' || c == '\t' || c == '\n' || c == '\r'

def skipBlanks (text : List Char) : List Char := text.dropWhile isJsonBlank

/-! ### Strings -/

def fourHex? (text : List Char) : Option Nat :=
  let digits := text.take 4
  if digits.length == 4 && digits.all isHexDigit then some (hexNumber digits) else none

def isHighSurrogate (n : Nat) : Bool := 0xD800 ≤ n && n < 0xDC00

def isLowSurrogate (n : Nat) : Bool := 0xDC00 ≤ n && n < 0xE000

/-- The character of an escape `\u`, and the length of the escape without its backslash. Two halves
of a surrogate pair are read together. -/
def unicodeEscape? (text : List Char) : Option (Char × Nat) :=
  match fourHex? text with
  | none => none
  | some high =>
    let low? : Option Nat :=
      match text.drop 4 with
      | '\\' :: 'u' :: rest => fourHex? rest
      | _ => none
    match low? with
    | some low =>
      if isHighSurrogate high && isLowSurrogate low then
        some (Char.ofNat (0x10000 + (high - 0xD800) * 0x400 + (low - 0xDC00)), 11)
      else if high.isValidChar then some (Char.ofNat high, 5) else some ('�', 5)
    | none => if high.isValidChar then some (Char.ofNat high, 5) else some ('�', 5)

/-- The character of an escape, and its length without the backslash. -/
def escape? : List Char → Option (Char × Nat)
  | '"' :: _ => some ('"', 1)
  | '\\' :: _ => some ('\\', 1)
  | '/' :: _ => some ('/', 1)
  | 'b' :: _ => some ('\x08', 1)
  | 'f' :: _ => some ('\x0c', 1)
  | 'n' :: _ => some ('\n', 1)
  | 'r' :: _ => some ('\r', 1)
  | 't' :: _ => some ('\t', 1)
  | 'u' :: rest => unicodeEscape? rest
  | _ => none

/-- Reads a string behind its opening quote, and gives its value and what follows the closing one.
The first `pending` characters belong to an escape that is already read. -/
def stringBody? (pending : Nat) : List Char → Option (List Char × List Char)
  | [] => none
  | c :: cs =>
    match pending with
    | n + 1 => stringBody? n cs
    | 0 =>
      if c == '"' then some ([], cs)
      else if c == '\\' then
        match escape? cs with
        | some (value, length) => (stringBody? length cs).map fun (v, rest) => (value :: v, rest)
        | none => none
      else if c.toNat < 0x20 then none
      else (stringBody? 0 cs).map fun (v, rest) => (c :: v, rest)

/-! ### Numbers -/

def digits? (text : List Char) : Option (List Char × List Char) :=
  match text.takeWhile isDigit with
  | [] => none
  | ds => some (ds, text.dropWhile isDigit)

/-- The part of a number before its point: a zero, or digits that do not begin with one. -/
def wholePart? : List Char → Option (List Char × List Char)
  | '0' :: rest => some (['0'], rest)
  | text => digits? text

/-- A point and the digits behind it, if there is a point. -/
def fractionPart? : List Char → Option (List Char × List Char)
  | '.' :: rest => (digits? rest).map fun (ds, rest) => ('.' :: ds, rest)
  | text => some ([], text)

def exponentPart? : List Char → Option (List Char × List Char)
  | c :: rest =>
    if c == 'e' || c == 'E' then
      match rest with
      | s :: more =>
        if s == '+' || s == '-' then (digits? more).map fun (ds, rest) => (c :: s :: ds, rest)
        else (digits? rest).map fun (ds, rest) => (c :: ds, rest)
      | [] => none
    else some ([], c :: rest)
  | [] => some ([], [])

def number? (text : List Char) : Option (List Char × List Char) := do
  let (sign, text) :=
    match text with
    | '-' :: rest => (['-'], rest)
    | _ => ([], text)
  let (whole, text) ← wholePart? text
  let (fraction, text) ← fractionPart? text
  let (exponent, text) ← exponentPart? text
  return (sign ++ whole ++ fraction ++ exponent, text)

/-! ### Values -/

mutual

/-- Reads a value at the start of a text; `fuel` bounds the steps and `depth` the nesting. -/
def value? : (fuel depth : Nat) → List Char → Option (JsonValue × List Char)
  | 0, _, _ => none
  | fuel + 1, depth, text =>
    match skipBlanks text with
    | '"' :: rest => (stringBody? 0 rest).map fun (v, rest) => (string (.ofList v), rest)
    | '[' :: rest =>
      match depth with
      | 0 => none
      | depth + 1 =>
        match skipBlanks rest with
        | ']' :: rest => some (array [], rest)
        | _ => (items? fuel depth rest).map fun (vs, rest) => (array vs, rest)
    | '\x7b' :: rest =>
      match depth with
      | 0 => none
      | depth + 1 =>
        match skipBlanks rest with
        | '\x7d' :: rest => some (object [], rest)
        | _ => (members? fuel depth rest).map fun (ms, rest) => (object ms, rest)
    | 'n' :: 'u' :: 'l' :: 'l' :: rest => some (null, rest)
    | 't' :: 'r' :: 'u' :: 'e' :: rest => some (bool true, rest)
    | 'f' :: 'a' :: 'l' :: 's' :: 'e' :: rest => some (bool false, rest)
    | text => (number? text).map fun (n, rest) => (number n, rest)

/-- Reads the items of an array up to its closing bracket. -/
def items? : (fuel depth : Nat) → List Char → Option (List JsonValue × List Char)
  | 0, _, _ => none
  | fuel + 1, depth, text =>
    match value? fuel depth text with
    | none => none
    | some (v, rest) =>
      match skipBlanks rest with
      | ',' :: rest => (items? fuel depth rest).map fun (vs, rest) => (v :: vs, rest)
      | ']' :: rest => some ([v], rest)
      | _ => none

/-- Reads the members of an object up to its closing brace. -/
def members? : (fuel depth : Nat) → List Char → Option (List (String × JsonValue) × List Char)
  | 0, _, _ => none
  | fuel + 1, depth, text =>
    match skipBlanks text with
    | '"' :: rest =>
      match stringBody? 0 rest with
      | none => none
      | some (name, rest) =>
        match skipBlanks rest with
        | ':' :: rest =>
          match value? fuel depth rest with
          | none => none
          | some (v, rest) =>
            match skipBlanks rest with
            | ',' :: rest =>
              (members? fuel depth rest).map fun (ms, rest) => ((.ofList name, v) :: ms, rest)
            | '\x7d' :: rest => some ([(.ofList name, v)], rest)
            | _ => none
        | _ => none
    | _ => none

end

def parse? (text : String) : Option JsonValue :=
  let cs := text.toList
  match value? (2 * cs.length + 1) maxDepth cs with
  | some (v, rest) => if (skipBlanks rest).isEmpty then some v else none
  | none => none

end JsonValue

end LemonScript
