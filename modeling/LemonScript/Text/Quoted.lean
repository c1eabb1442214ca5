import LemonScript.Text.Hex
import LemonScript.Text.Printable
/-!
# Quoted text in messages

Messages and dumps show a text between double quotes. Printable characters stand for themselves,
the others are written as escape sequences.
-/

namespace LemonScript

/-- How a quoted text shows one character. -/
def quotedChar (c : Char) : List Char :=
  if c == '"' then ['\\', '"']
  else if c == '\\' then ['\\', '\\']
  else if isPrintable c then [c]
  else
    match c.toNat with
    | 0x07 => ['\\', 'a']
    | 0x08 => ['\\', 'b']
    | 0x0C => ['\\', 'f']
    | 0x0A => ['\\', 'n']
    | 0x0D => ['\\', 'r']
    | 0x09 => ['\\', 't']
    | 0x0B => ['\\', 'v']
    | n =>
      if n < 0x20 || n == 0x7F then '\\' :: 'x' :: hexText 2 n
      else if n < 0x10000 then '\\' :: 'u' :: hexText 4 n
      else '\\' :: 'U' :: hexText 8 n

def quoted (text : String) : String :=
  String.ofList ('"' :: (text.toList.flatMap quotedChar ++ ['"']))

end LemonScript
