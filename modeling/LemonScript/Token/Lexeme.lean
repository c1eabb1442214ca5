import LemonScript.Text.Digit
import LemonScript.Text.Letter
import LemonScript.Token.Keyword
/-!
# The shapes of tokens

Each shape is a function of the characters ahead: how many of them make up the token, and what the
token means. Nothing here moves a cursor.
-/

namespace LemonScript

/-- A character that a keyword may not be followed by. -/
def isWordChar (c : Char) : Bool :=
  isLetter c || isDecimalDigit c

/-- A character of an identifier behind its first letter. -/
def isIdentifierChar (c : Char) : Bool :=
  isWordChar c || c == '_'

def startsWithWord (phrase text : List Char) : Bool :=
  phrase.isPrefixOf text && !((text.drop phrase.length).head?.any isWordChar)

def startsWithReserved (text : List Char) : Bool :=
  Keyword.reserved.any fun k => startsWithWord k.spelling.toList text

/-- The identifier ahead: a letter, then letters, digits and underscores, unless a reserved keyword
stands there. -/
def identifier? (text : List Char) : Option (List Char) :=
  if text.head?.any isLetter && !startsWithReserved text then some (text.takeWhile isIdentifierChar)
  else none

/-- The operators that an operator is the beginning of and must not be cut from. -/
def longerOperators : String → List String
  | "=" => ["=="]
  | "<" => ["<="]
  | ">" => [">="]
  | "!" => ["!="]
  | "+" => ["+="]
  | "-" => ["-="]
  | _ => []

/-- Whether an operator stands ahead and is not the beginning of a longer one. -/
def startsWithOperator (op : String) (text : List Char) : Bool :=
  op.toList.isPrefixOf text && !((longerOperators op).any fun o => o.toList.isPrefixOf text)

/-- A number ahead: its digits before the point and, if it has a point, those behind it. -/
structure NumberLexeme where
  whole : List Char
  fraction : Option (List Char)
deriving Repr, DecidableEq

namespace NumberLexeme

def text (n : NumberLexeme) : List Char :=
  match n.fraction with
  | none => n.whole
  | some fraction => n.whole ++ '.' :: fraction

end NumberLexeme

/-- The number ahead. A point belongs to it only if a digit follows. -/
def number? (text : List Char) : Option NumberLexeme :=
  match text.takeWhile isDigit with
  | [] => none
  | whole =>
    match text.dropWhile isDigit with
    | '.' :: c :: rest =>
      if isDigit c then some ⟨whole, some ((c :: rest).takeWhile isDigit)⟩ else some ⟨whole, none⟩
    | _ => some ⟨whole, none⟩

/-- The character that an escape stands for, and the length of the escape without its backslash;
`text` begins behind the backslash. -/
def escape? (text : List Char) : Option (Char × Nat) :=
  match text with
  | 'n' :: _ => some ('\n', 1)
  | '\'' :: _ => some ('\'', 1)
  | '"' :: _ => some ('"', 1)
  | '\\' :: _ => some ('\\', 1)
  | 'u' :: '\x7b' :: rest =>
    let digits := (rest.take 6).takeWhile isHexDigit
    let code := hexNumber digits
    if digits.isEmpty || (rest.drop digits.length).head? != some '\x7d' then none
    else if code.isValidChar then some (Char.ofNat code, digits.length + 3)
    else none
  | _ => none

/-- How the reading of a string literal behind its opening quote ends. -/
inductive StringLexeme
  /-- The closing quote was found; `length` characters were read, the quote included. -/
  | closed (value : List Char) (length : Nat)
  | unclosed (length : Nat)
  /-- No escape is spelled like the one behind `length` characters. -/
  | badEscape (length : Nat)
deriving Repr, DecidableEq

namespace StringLexeme

/-- One more character was read in front. -/
def skip : StringLexeme → StringLexeme
  | closed value length => closed value (length + 1)
  | unclosed length => unclosed (length + 1)
  | badEscape length => badEscape (length + 1)

/-- One more character was read in front, and it stands for `c`. -/
def cons (c : Char) : StringLexeme → StringLexeme
  | closed value length => closed (c :: value) (length + 1)
  | unclosed length => unclosed (length + 1)
  | badEscape length => badEscape (length + 1)

end StringLexeme

/-- Reads a string literal behind its opening quote; the first `pending` characters belong to an
escape that is already read. -/
def stringBody (pending : Nat) : List Char → StringLexeme
  | [] => .unclosed 0
  | c :: cs =>
    match pending with
    | n + 1 => (stringBody n cs).skip
    | 0 =>
      if c == '"' then .closed [] 1
      else if c == '\\' then
        match escape? cs with
        | some (value, length) => (stringBody length cs).cons value
        | none => .badEscape 0
      else (stringBody 0 cs).cons c

end LemonScript
