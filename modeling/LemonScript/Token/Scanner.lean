import LemonScript.Source.Cursor
import LemonScript.Source.SyntaxError
import LemonScript.Token.Lexeme
/-!
# The scanner

There is no list of tokens: a scanner is asked for the token that is wanted next, and either moves
behind it or notes that it was wanted there. Of these notes only those at the furthest place
survive, which is where a parse that went back and forth really broke down.
-/

namespace LemonScript

/-- A token with the offsets of its start and its end. -/
structure Token where
  kind : TokenKind
  text : String
  start : Nat
  stop : Nat
deriving Repr, DecidableEq

/-- A source, a place in it, and what was wanted at the furthest place of failure. -/
structure Scanner where
  filename : String
  source : List Char
  cursor : Cursor
  furthest : Nat
  expected : List String
deriving Repr, DecidableEq

/-- Adds a text to an ascending list without repetitions. -/
def insertText (text : String) : List String → List String
  | [] => [text]
  | t :: ts =>
    if text < t then text :: t :: ts
    else if text == t then t :: ts
    else t :: insertText text ts

namespace Scanner

def ofSource (filename source : String) : Scanner where
  filename := filename
  source := source.toList
  cursor := ⟨0, source.toList⟩
  furthest := 0
  expected := []

def offset (s : Scanner) : Nat := s.cursor.offset

def reset (s : Scanner) (c : Cursor) : Scanner := { s with cursor := c }

def goTo (s : Scanner) (offset : Nat) : Scanner := s.reset (Cursor.ofOffset s.source offset)

def skipBlanks (s : Scanner) : Scanner := s.reset s.cursor.skipBlanks

def advance (s : Scanner) (n : Nat) : Scanner := s.reset (s.cursor.advance n)

def failAt (s : Scanner) (offset : Nat) (wanted : String) : Scanner :=
  if s.furthest < offset then { s with furthest := offset, expected := [wanted] }
  else if offset == s.furthest then { s with expected := insertText wanted s.expected }
  else s

/-- Notes that something was wanted at the cursor. -/
def fail (s : Scanner) (wanted : String) : Scanner := s.failAt s.offset wanted

def position (s : Scanner) (offset : Nat) : Position :=
  Position.ofOffset s.filename s.source offset

def span (s : Scanner) (t : Token) : Span :=
  ⟨s.position t.start, s.position t.stop⟩

/-- What was wanted at the furthest failure. -/
def error (s : Scanner) : SyntaxError where
  expected := s.expected
  location := s.position s.furthest

private def take (s : Scanner) (kind : TokenKind) (text : List Char) (length : Nat) : Token × Scanner :=
  (⟨kind, String.ofList text, s.offset, s.offset + length⟩, s.advance length)

/-- Whether nothing but blanks is left. -/
def atEnd (s : Scanner) : Bool × Scanner :=
  let s := s.skipBlanks
  if s.cursor.rest.isEmpty then (true, s) else (false, s.fail "end of input")

def keyword (s : Scanner) (k : TokenKind) : Bool × Scanner :=
  let s := s.skipBlanks
  let phrase := k.spelling.toList
  if startsWithWord phrase s.cursor.rest then (true, s.advance phrase.length)
  else (false, s.fail k.text)

/-- Whether a keyword comes next. -/
def peekKeyword (s : Scanner) (k : TokenKind) : Bool × Scanner :=
  let s := s.skipBlanks
  (startsWithWord k.spelling.toList s.cursor.rest, s)

def operator (s : Scanner) (op : String) : Bool × Scanner :=
  let s := s.skipBlanks
  if startsWithOperator op s.cursor.rest then (true, s.advance op.length)
  else (false, s.fail (quoted op))

def identifier (s : Scanner) : Option Token × Scanner :=
  let s := s.skipBlanks
  match identifier? s.cursor.rest with
  | some name =>
    let (t, s) := s.take .identifier name name.length
    (some t, s)
  | none => (none, s.fail TokenKind.identifier.text)

def digits (s : Scanner) : Option Token × Scanner :=
  let s := s.skipBlanks
  match s.cursor.rest.takeWhile isDigit with
  | [] => (none, s.fail "integer index")
  | digits =>
    let (t, s) := s.take .number digits digits.length
    (some t, s)

/-- Passes a number, and gives its parts too. -/
def number (s : Scanner) : Option (Token × NumberLexeme) × Scanner :=
  let s := s.skipBlanks
  match number? s.cursor.rest with
  | some n =>
    let (t, s) := s.take .number n.text n.text.length
    (some (t, n), s)
  | none => (none, s.fail TokenKind.number.text)

/-- Passes a string literal; the token's text is what the literal stands for. -/
def string (s : Scanner) : Option Token × Scanner :=
  let s := s.skipBlanks
  match s.cursor.rest with
  | '"' :: body =>
    match stringBody 0 body with
    | .closed value length =>
      let (t, s) := s.take .string value (length + 1)
      (some t, s)
    | .unclosed length => (none, s.failAt (s.offset + 1 + length) "closing \"")
    | .badEscape length => (none, s.failAt (s.offset + 1 + length) "escape sequence")
  | _ => (none, s.fail TokenKind.string.text)

end Scanner

end LemonScript
