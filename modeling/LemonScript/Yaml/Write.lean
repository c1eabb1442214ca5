import LemonScript.Text.Hex
import LemonScript.Yaml.Character
import LemonScript.Yaml.Resolve
/-!
# Writing scalars

Text is written as it is where it reads back as the same text, between single quotes where it begins
or contains what has a meaning of its own, and between double quotes where it needs escapes or would
be taken for something other than text. A text of several lines is written as a block. Long texts are
broken at their spaces.
-/

namespace LemonScript.Yaml

/-- Whether something inside a text, behind its first character, has a meaning of its own. -/
def hasInnerIndicator (previous : Char) : List Char → Bool
  | [] => false
  | c :: rest =>
    (c == ':' && isGap rest.head?) || (c == '#' && isGap (some previous)) || hasInnerIndicator c rest

/-- Whether a text begins with, or contains, what has a meaning of its own. -/
def hasIndicator : List Char → Bool
  | [] => false
  | '-' :: '-' :: '-' :: _ => true
  | '.' :: '.' :: '.' :: _ => true
  | c :: rest =>
    isIndicator c || (['?', ':', '-'].contains c && isGap rest.head?) || hasInnerIndicator c rest

def hasSpaceBreak : List Char → Bool
  | c :: d :: rest => (c == ' ' && isLineBreak d) || hasSpaceBreak (d :: rest)
  | _ => false

def hasBreakSpace : List Char → Bool
  | c :: d :: rest => (isLineBreak c && d == ' ') || hasBreakSpace (d :: rest)
  | _ => false

/-- How a scalar is written. -/
inductive Style
  | plain
  | single
  | double
  | block
deriving Repr, DecidableEq

def styleOf (text : String) : Style :=
  let cs := text.toList
  let needsEscapes := !cs.all isWritable || hasSpaceBreak cs
  let edge := cs.head? == some ' ' || cs.getLast? == some ' '
  if cs.contains '\n' then if needsEscapes || cs.getLast? == some ' ' then .double else .block
  else if !(resolve text).isText || isSexagesimal cs then .double
  else if needsEscapes || hasBreakSpace cs then .double
  else if edge || cs.any isLineBreak || hasIndicator cs then .single
  else .plain

def shortEscape? (c : Char) : Option Char :=
  match c.toNat with
  | 0x00 => some '0'
  | 0x07 => some 'a'
  | 0x08 => some 'b'
  | 0x09 => some 't'
  | 0x0A => some 'n'
  | 0x0B => some 'v'
  | 0x0C => some 'f'
  | 0x0D => some 'r'
  | 0x1B => some 'e'
  | 0x22 => some '"'
  | 0x5C => some '\\'
  | 0x85 => some 'N'
  | 0xA0 => some '_'
  | 0x2028 => some 'L'
  | 0x2029 => some 'P'
  | _ => none

/-- A character between double quotes. Where `always`, also one that needs no escape has one. -/
def escapedChar (always : Bool) (c : Char) : List Char :=
  if !always && isWritable c && !isLineBreak c && c != '"' && c != '\\' then [c]
  else
    match shortEscape? c with
    | some e => ['\\', e]
    | none =>
      let hex (width : Nat) := (hexText width c.toNat).map Char.toUpper
      if c.toNat ≤ 0xFF then '\\' :: 'x' :: hex 2
      else if c.toNat ≤ 0xFFFF then '\\' :: 'u' :: hex 4
      else '\\' :: 'U' :: hex 8

/-- The number of columns behind which a text is broken at a space. -/
def lineWidth : Nat := 80

/-- The blanks in front of the lines that continue a scalar. -/
def continuation : List Char := [' ', ' ']

def singleChar (c : Char) : List Char := if c == '\'' then ['\'', '\''] else [c]

/-- The characters of a text from a column on, each written by `write`. A single space behind the
line's width is written as the end of the line, and a line that the text itself ends goes on behind
the blanks of a continuation. -/
def folded (write : Char → List Char) (column : Nat) (previous : Option Char) : List Char → List Char
  | [] => []
  | c :: rest =>
    let follows := previous.isSome && previous != some ' '
    if c == ' ' && column > lineWidth && follows && !rest.isEmpty && rest.head? != some ' ' then
      '\n' :: continuation ++ folded write continuation.length (some c) rest
    else if isLineBreak c then c :: folded write 0 (some c) rest
    else
      let indent := if previous.any isLineBreak then continuation else []
      indent ++ write c ++ folded write (column + indent.length + (write c).length) (some c) rest

/-- The characters of a text between double quotes, each written by `write`, from a column on. The
first space behind the line's width is written as the end of the line; a backslash keeps a second
one. -/
def foldedEscapes (write : Char → List Char) (column : Nat) (previous : Option Char) :
    List Char → List Char
  | [] => []
  | c :: rest =>
    let follows := previous.isSome && previous != some ' '
    if (write c).head? == some ' ' && column > lineWidth && follows && !rest.isEmpty then
      let start := continuation ++ if rest.head? == some ' ' then ['\\'] else []
      '\n' :: start ++ foldedEscapes write start.length (some c) rest
    else write c ++ foldedEscapes write (column + (write c).length) (some c) rest

/-- The characters between double quotes. In a text that begins with a byte order mark every
character is escaped. -/
def doubleText (column : Nat) (text : List Char) : List Char :=
  foldedEscapes (escapedChar (text.head?.any isByteOrderMark)) column none text

/-- The signs behind the bar of a block: the width of the indentation where the text begins with a
blank, and what becomes of the line breaks at the end. -/
def blockHints (text : List Char) : List Char :=
  let width := if text.head?.any (fun c => c == ' ' || isLineBreak c) then ['2'] else []
  let ending :=
    match text.reverse with
    | c :: d :: _ => if !isLineBreak c then ['-'] else if isLineBreak d then ['+'] else []
    | [c] => if isLineBreak c then ['+'] else ['-']
    | [] => ['-']
  width ++ ending

/-- The lines of a block. Lines without characters are not indented. -/
def blockText (atStart : Bool) : List Char → List Char
  | [] => []
  | c :: rest =>
    if isLineBreak c then c :: blockText true rest
    else (if atStart then continuation else []) ++ c :: blockText false rest

def scalarText (column : Nat) (text : String) : String :=
  let cs := text.toList
  match styleOf text with
  | .plain => .ofList (folded (fun c => [c]) column none cs)
  | .single => "'" ++ .ofList (folded singleChar (column + 1) none cs) ++ "'"
  | .double => "\"" ++ .ofList (doubleText (column + 1) cs) ++ "\""
  | .block => "|" ++ .ofList (blockHints cs ++ '\n' :: blockText true cs)

end LemonScript.Yaml
