/-!
# Letters without case

Names of stages are compared without regard to case. They are ASCII, so only the letters whose
lower-case form is ASCII matter: two of them, `İ` and the Kelvin sign, are not ASCII themselves.
-/

namespace LemonScript

/-- The lower-case form of a letter, if that is ASCII; any other character stays as it is. -/
def asciiLower (c : Char) : Char :=
  if c.toNat == 0x130 then 'i'
  else if c.toNat == 0x212A then 'k'
  else c.toLower

/-- A text with the letters lowered whose lower-case form is ASCII. -/
def lowered (text : String) : String := text.map asciiLower

end LemonScript
