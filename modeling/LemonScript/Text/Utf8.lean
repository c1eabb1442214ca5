/-!
# Bytes as text

A source file is a sequence of bytes in UTF-8. A byte that begins no well-formed character stands for
the replacement character, and reading goes on behind that byte.
-/

namespace LemonScript

/-- A byte in the second or a later place of a character. -/
def isContinuation (b : UInt8) : Bool := 0x80 ≤ b && b ≤ 0xBF

def sixBits (b : UInt8) : Nat := b.toNat % 0x40

/-- The bytes that may follow the first byte of a character of several bytes, and how many bytes it
has. Overlong forms, surrogates and values beyond the last code point are excluded here. -/
def secondByte? (b : UInt8) : Option (UInt8 × UInt8 × Nat) :=
  if 0xC2 ≤ b && b ≤ 0xDF then some (0x80, 0xBF, 2)
  else if b == 0xE0 then some (0xA0, 0xBF, 3)
  else if b == 0xED then some (0x80, 0x9F, 3)
  else if 0xE1 ≤ b && b ≤ 0xEF then some (0x80, 0xBF, 3)
  else if b == 0xF0 then some (0x90, 0xBF, 4)
  else if 0xF1 ≤ b && b ≤ 0xF3 then some (0x80, 0xBF, 4)
  else if b == 0xF4 then some (0x80, 0x8F, 4)
  else none

/-- The character at the start of a sequence of bytes and the number of its bytes. -/
def firstChar : List UInt8 → Char × Nat
  | [] => ('�', 1)
  | b :: rest =>
    if b < 0x80 then (Char.ofNat b.toNat, 1)
    else
      match secondByte? b, rest with
      | some (low, high, 2), c :: _ =>
        if low ≤ c && c ≤ high then (Char.ofNat (b.toNat % 0x20 * 0x40 + sixBits c), 2)
        else ('�', 1)
      | some (low, high, 3), c :: d :: _ =>
        if low ≤ c && c ≤ high && isContinuation d then
          (Char.ofNat ((b.toNat % 0x10 * 0x40 + sixBits c) * 0x40 + sixBits d), 3)
        else ('�', 1)
      | some (low, high, 4), c :: d :: e :: _ =>
        if low ≤ c && c ≤ high && isContinuation d && isContinuation e then
          (Char.ofNat (((b.toNat % 0x08 * 0x40 + sixBits c) * 0x40 + sixBits d) * 0x40 + sixBits e), 4)
        else ('�', 1)
      | _, _ => ('�', 1)

/-- The characters of a sequence of bytes; the first `pending` bytes belong to a character that is
already read. -/
def decodeFrom (pending : Nat) : List UInt8 → List Char
  | [] => []
  | b :: rest =>
    match pending with
    | n + 1 => decodeFrom n rest
    | 0 =>
      let (c, length) := firstChar (b :: rest)
      c :: decodeFrom (length - 1) rest

/-- The text of a sequence of bytes. -/
def decodeUtf8 (bytes : List UInt8) : String := String.ofList (decodeFrom 0 bytes)

end LemonScript
