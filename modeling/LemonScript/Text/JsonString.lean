import LemonScript.Text.Hex
/-!
# JSON strings

The written form of a string in JSON and in JavaScript. Control characters and the two line
separators are escaped; for text that ends up in a page `<`, `>` and `&` are escaped too.
-/

namespace LemonScript

/-- Whether a JSON string has to be safe inside a page of markup. -/
inductive JsonSafety
  | plain
  | markup
deriving DecidableEq

/-- How a JSON string writes one character. -/
def jsonChar (safety : JsonSafety) (c : Char) : List Char :=
  match c with
  | '"' => ['\\', '"']
  | '\\' => ['\\', '\\']
  | '\n' => ['\\', 'n']
  | '\r' => ['\\', 'r']
  | '\t' => ['\\', 't']
  | '\x08' => ['\\', 'b']
  | '\x0c' => ['\\', 'f']
  | _ =>
    let marked := safety == .markup && (c == '<' || c == '>' || c == '&')
    if c.toNat < 0x20 || c.toNat == 0x2028 || c.toNat == 0x2029 || marked then
      '\\' :: 'u' :: hexText 4 c.toNat
    else [c]

def jsonString (safety : JsonSafety) (text : String) : String :=
  String.ofList ('"' :: (text.toList.flatMap (jsonChar safety) ++ ['"']))

end LemonScript
