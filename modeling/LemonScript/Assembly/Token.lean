import LemonScript.Assembly.Escape
import LemonScript.Text.Utf8
/-!
# Tokens of the assembly language

The text is read one character at a time: what was read of the present token is the state, and a
character that cannot continue a token ends it.
-/

namespace LemonScript.Assembly

/-- What stands in front of a name or of a quoted text, and says what it names. -/
inductive Sigil
  | plain
  | global
  | local
  | bytes
deriving Repr, DecidableEq

inductive AsmToken
  | word (text : List Char)
  | global (name : String)
  | local (name : String)
  | text (value : List UInt8)
  | bytes (value : List UInt8)
  | mark (c : Char)
deriving Repr, DecidableEq

/-- What of the present token was read, last character first. -/
inductive Reading
  | between
  | comment
  | name (sigil : Sigil) (seen : List Char)
  | quoted (sigil : Sigil) (seen : List Char)

def isWordChar (c : Char) : Bool :=
  c.isAlphanum || c == '$' || c == '-' || c == '.' || c == '_'

/-- The marks that are tokens of one character. -/
def isMark (c : Char) : Bool :=
  ['=', '[', ']', '(', ')', ',', '*'].contains c

def nameToken? : Sigil → (seen : List Char) → Option AsmToken
  | .plain, seen => some (.word seen.reverse)
  | .global, seen => if seen.isEmpty then none else some (.global (.ofList seen.reverse))
  | .local, seen => if seen.isEmpty then none else some (.local (.ofList seen.reverse))
  | .bytes, _ => none

def quotedToken (sigil : Sigil) (seen : List Char) : AsmToken :=
  let value := unescape seen.reverse
  match sigil with
  | .plain => .text value
  | .global => .global (decodeUtf8 value)
  | .local => .local (decodeUtf8 value)
  | .bytes => .bytes value

def start (c : Char) : Option (List AsmToken × Reading) :=
  if c == ' ' || c == '\t' || c == '\n' || c == '\r' then some ([], .between)
  else if c == ';' then some ([], .comment)
  else if c == '@' then some ([], .name .global [])
  else if c == '%' then some ([], .name .local [])
  else if c == '"' then some ([], .quoted .plain [])
  else if isWordChar c then some ([], .name .plain [c])
  else if isMark c then some ([.mark c], .between)
  else none

/-- Reads a character: the tokens that it ends, and what is being read after it. -/
def step : Reading → Char → Option (List AsmToken × Reading)
  | .between, c => start c
  | .comment, c => some ([], if c == '\n' then .between else .comment)
  | .quoted sigil seen, c =>
    if c == '"' then some ([quotedToken sigil seen], .between)
    else some ([], .quoted sigil (c :: seen))
  | .name sigil seen, c =>
    if isWordChar c then some ([], .name sigil (c :: seen))
    else if c == '"' && seen.isEmpty then some ([], .quoted sigil [])
    else if c == '"' && sigil == .plain && seen == ['c'] then some ([], .quoted .bytes [])
    else do
      let token ← nameToken? sigil seen
      let (tokens, reading) ← start c
      return (token :: tokens, reading)

def tokensFrom : Reading → List Char → Option (List AsmToken)
  | .between, [] | .comment, [] => some []
  | .name sigil seen, [] => (nameToken? sigil seen).map fun token => [token]
  | .quoted _ _, [] => none
  | reading, c :: cs => do
    let (tokens, reading) ← step reading c
    return tokens ++ (← tokensFrom reading cs)

def tokens? (text : String) : Option (List AsmToken) := tokensFrom .between text.toList

end LemonScript.Assembly
