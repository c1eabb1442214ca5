import LemonScript.Text.Blank
/-!
# Reading places

A cursor stands between two characters of a source: it knows how many are behind it and which are
ahead. Blanks and comments are passed over here. A comment opens with `( *)`; it runs to the next
`(* )` if there is one anywhere behind it, and otherwise to the end of its line.
-/

namespace LemonScript

/-- A place in a source: the number of characters behind it, and the characters ahead. -/
structure Cursor where
  offset : Nat
  rest : List Char
deriving Repr, DecidableEq, Inhabited

def commentStart : List Char := ['(', ' ', '*', ')']

/-- What closes a comment of several lines. -/
def commentEnd : List Char := ['(', '*', ' ', ')']

/-- The number of characters before the first occurrence of a text. -/
def distance? (text : List Char) : List Char → Option Nat
  | [] => if text.isEmpty then some 0 else none
  | c :: cs => if text.isPrefixOf (c :: cs) then some 0 else (distance? text cs).map (· + 1)

/-- The length of the comment at the start of a text, if there is one. -/
def commentLength? (text : List Char) : Option Nat :=
  if commentStart.isPrefixOf text then
    let body := text.drop commentStart.length
    let length :=
      match distance? commentEnd body with
      | some n => n + commentEnd.length
      | none => (body.takeWhile (· != '\n')).length
    some (commentStart.length + length)
  else none

namespace Cursor

/-- The place before the character with a number. -/
def ofOffset (source : List Char) (offset : Nat) : Cursor :=
  ⟨offset, source.drop offset⟩

def advance (c : Cursor) (n : Nat) : Cursor :=
  ⟨c.offset + n, c.rest.drop n⟩

def passBlanks (pending offset : Nat) : List Char → Cursor
  | [] => ⟨offset, []⟩
  | c :: cs =>
    match pending with
    | n + 1 => passBlanks n (offset + 1) cs
    | 0 =>
      if isBlank c then passBlanks 0 (offset + 1) cs
      else
        match commentLength? (c :: cs) with
        | some n => passBlanks (n - 1) (offset + 1) cs
        | none => ⟨offset, c :: cs⟩

def skipBlanks (c : Cursor) : Cursor :=
  passBlanks 0 c.offset c.rest

end Cursor

end LemonScript
