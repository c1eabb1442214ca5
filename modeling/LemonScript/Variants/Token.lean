import LemonScript.Text.Digit
import LemonScript.Text.Letter
/-!
# Tokens of kind declarations

Names, and single characters for everything else. Blanks and comments separate tokens.
-/

namespace LemonScript.Variants

inductive Token
  | name (text : String)
  | mark (c : Char)
deriving Repr, DecidableEq

/-- What is being read, with the characters of a name read so far, last first. -/
inductive Reading
  | between
  | name (seen : List Char)
  | slash
  | lineComment
  | longComment
  | longCommentStar

def isNameStart (c : Char) : Bool := isLetter c || c == '_'

def isNameChar (c : Char) : Bool := isNameStart c || isDecimalDigit c

def isSeparator (c : Char) : Bool :=
  c == ' ' || c == '\t' || c == '\n' || c == '\r'

def start (c : Char) : List Token × Reading :=
  if isSeparator c then ([], .between)
  else if isNameStart c then ([], .name [c])
  else if c == '/' then ([], .slash)
  else ([.mark c], .between)

/-- Reads a character: the tokens that it ends, and what is being read after it. -/
def step : Reading → Char → List Token × Reading
  | .between, c => start c
  | .name seen, c =>
    if isNameChar c then ([], .name (c :: seen))
    else
      let (tokens, reading) := start c
      (.name (.ofList seen.reverse) :: tokens, reading)
  | .slash, c =>
    if c == '/' then ([], .lineComment)
    else if c == '*' then ([], .longComment)
    else
      let (tokens, reading) := start c
      (.mark '/' :: tokens, reading)
  | .lineComment, c => ([], if c == '\n' then .between else .lineComment)
  | .longComment, c => ([], if c == '*' then .longCommentStar else .longComment)
  | .longCommentStar, c =>
    ([], if c == '/' then .between else if c == '*' then .longCommentStar else .longComment)

/-- The tokens of a text, given what is being read. A comment that is not closed is an error. -/
def tokensFrom : Reading → List Char → Option (List Token)
  | .between, [] | .lineComment, [] => some []
  | .name seen, [] => some [.name (.ofList seen.reverse)]
  | .slash, [] => some [.mark '/']
  | .longComment, [] | .longCommentStar, [] => none
  | reading, c :: cs =>
    let (tokens, reading) := step reading c
    (tokensFrom reading cs).map fun rest => tokens ++ rest

/-- The tokens of a text, in front of which a byte order mark may stand. A zero character is an error
even in a comment. -/
def tokens? (text : String) : Option (List Token) :=
  let cs := text.toList
  if cs.contains '\x00' then none
  else tokensFrom .between (if cs.head? == some '\uFEFF' then cs.tail else cs)

end LemonScript.Variants
