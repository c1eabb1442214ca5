import LemonScript.Text.Digit
import LemonScript.Text.Hex
/-!
# Bytes in quoted assembly text

A byte that is no visible ASCII character, and a quote or a backslash, is written as a backslash and
two digits of base sixteen.
-/

namespace LemonScript.Assembly

/-- Whether a byte stands for itself between quotes. -/
def isPlainByte (b : UInt8) : Bool :=
  0x20 ≤ b && b ≤ 0x7E && b != '"'.toUInt8 && b != '\\'.toUInt8

/-- A byte as it is written between quotes. -/
def escapeByte (b : UInt8) : List Char :=
  if isPlainByte b then [Char.ofUInt8 b]
  else '\\' :: (hexText 2 b.toNat).map Char.toUpper

def escape (bytes : List UInt8) : List Char := bytes.flatMap escapeByte

/-- The bytes that text between quotes stands for. A backslash that begins no escape stands for
itself, and so do the bytes of every other character. -/
def unescape : List Char → List UInt8
  | '\\' :: '\\' :: rest => '\\'.toUInt8 :: unescape rest
  | '\\' :: a :: b :: rest =>
    if isHexDigit a && isHexDigit b then UInt8.ofNat (hexNumber [a, b]) :: unescape rest
    else '\\'.toUInt8 :: unescape (a :: b :: rest)
  | c :: rest => c.toString.toUTF8.toList ++ unescape rest
  | [] => []

def isNameByte (b : UInt8) : Bool :=
  let c := Char.ofUInt8 b
  c.isAlphanum || c == '$' || c == '-' || c == '.' || c == '_'

def quotedBytes (bytes : List UInt8) : String :=
  "\"" ++ .ofList (escape bytes) ++ "\""

def nameText (name : String) : String :=
  let bytes := name.toUTF8.toList
  if bytes.all isNameByte then name else quotedBytes bytes

end LemonScript.Assembly
