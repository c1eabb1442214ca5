/-!
# Characters of a settings file

Which characters a file may hold, which of them separate and which have a meaning of their own.
-/

namespace LemonScript.Yaml

def isSpace (c : Char) : Bool := c == ' ' || c == '\t'

def isLineBreak (c : Char) : Bool :=
  c == '\n' || c == '\r' || c.toNat == 0x85 || c.toNat == 0x2028 || c.toNat == 0x2029

/-- What a line break is read as: the separators of lines and of paragraphs stay what they are, and
all others are newlines. -/
def lineEnd (c : Char) : Char :=
  if c.toNat == 0x2028 || c.toNat == 0x2029 then c else '\n'

def isGap : Option Char → Bool
  | none => true
  | some c => isSpace c || c == '\x00' || isLineBreak c

/-- Whether a character may stand in a text without an escape. -/
def isWritable (c : Char) : Bool :=
  let n := c.toNat
  n == 0x0A || (0x20 ≤ n && n ≤ 0x7E) || (0xA0 ≤ n && n ≤ 0xFFFD && n != 0xFEFF)

def isByteOrderMark (c : Char) : Bool := c.toNat == 0xFEFF

/-- Whether a character may stand in a file. -/
def isReadable (c : Char) : Bool :=
  isWritable c || c == '\t' || c == '\r' || c.toNat == 0x85 || isByteOrderMark c || 0x10000 ≤ c.toNat

/-- Whether a scalar that begins with this character would not be read as plain text. -/
def isIndicator (c : Char) : Bool :=
  ['#', ',', '[', ']', '\x7b', '\x7d', '&', '*', '!', '|', '>', '\'', '"', '%', '@', '\x60'].contains c

/-- Whether a character stands between the members of a collection in brackets, or around them. -/
def isFlowIndicator (c : Char) : Bool :=
  [',', '?', '[', ']', '\x7b', '\x7d'].contains c

end LemonScript.Yaml
