import LemonScript.Text.Digit
import LemonScript.Yaml.Input
/-!
# Reading scalars

A scalar is plain, between quotes of either kind, or a block of lines kept as they are. The first
three may run over several lines; the gaps between their words are then folded.
-/

namespace LemonScript.Yaml

/-! ### Plain scalars -/

/-- Whether the word of a plain scalar ends before a text. Between brackets their signs end it too. -/
def endsWord (flow : Bool) : List Char → Bool
  | [] => true
  | c :: rest =>
    isGap (some c) || (c == ':' && isGap rest.head?) || (flow && isFlowIndicator c)

def plainWord (flow : Bool) : List Char → List Char
  | [] => []
  | c :: rest => if endsWord flow (c :: rest) then [] else c :: plainWord flow rest

/-- What is read of a plain scalar, whether a new line has begun behind it, and the place there. -/
structure PlainScalar where
  text : List Char
  newLine : Bool
  next : Input
deriving Repr, DecidableEq

/-- Reads the words of a plain scalar; `joint` stands before the next one. The scalar ends at a
comment, at the mark of a document, and outside brackets at a line that begins before the margin. -/
def plainWords? (flow : Bool) (margin : Nat) (joint : List Char) (newLine : Bool) :
    Nat → Input → Option PlainScalar
  | 0, i => some ⟨[], newLine, i⟩
  | fuel + 1, i =>
    let word := plainWord flow i.rest
    if i.atMark || i.rest.head? == some '#' || word.isEmpty then some ⟨[], newLine, i⟩
    else
      let (gap, next) := (i.pass word.length).gap
      let newLine := !gap.lines.isEmpty
      if gap.hasTabBefore margin then none
      else if gap.isEmpty || !flow && next.column < margin then some ⟨joint ++ word, newLine, next⟩
      else
        (plainWords? flow margin gap.text newLine fuel next).map fun s =>
          { s with text := joint ++ word ++ s.text }

def plainScalar? (flow : Bool) (margin : Nat) (i : Input) : Option PlainScalar :=
  plainWords? flow margin [] false (i.rest.length + 1) i

/-- Whether a text begins a plain scalar. -/
def startsPlain (flow : Bool) : List Char → Bool
  | [] => false
  | c :: rest =>
    if c == '-' then !isGap rest.head?
    else if c == '?' || c == ':' then !flow && !isGap rest.head?
    else !isGap (some c) && !isIndicator c

/-! ### Quoted scalars -/

/-- The word at the start of a text between single quotes, and its length as it is written. A quote
is written twice. -/
def singleWord : List Char → List Char × Nat
  | '\'' :: '\'' :: rest =>
    let (text, length) := singleWord rest
    ('\'' :: text, length + 2)
  | [] => ([], 0)
  | c :: rest =>
    if c == '\'' || isGap (some c) then ([], 0)
    else
      let (text, length) := singleWord rest
      (c :: text, length + 1)

/-- The character that a number of digits of base sixteen names, and the length of the escape. -/
def hexEscape? (width : Nat) (text : List Char) : Option (Char × Nat) :=
  let digits := text.take width
  let n := hexNumber digits
  if digits.length == width && digits.all isHexDigit && n.isValidChar then
    some (Char.ofNat n, width + 1)
  else none

/-- The character of an escape, and its length without the backslash. -/
def doubleEscape? : List Char → Option (Char × Nat)
  | [] => none
  | 'x' :: rest => hexEscape? 2 rest
  | 'u' :: rest => hexEscape? 4 rest
  | 'U' :: rest => hexEscape? 8 rest
  | c :: _ =>
    let value? : Option Nat :=
      match c with
      | '0' => some 0x00
      | 'a' => some 0x07
      | 'b' => some 0x08
      | 't' | '\t' => some 0x09
      | 'n' => some 0x0A
      | 'v' => some 0x0B
      | 'f' => some 0x0C
      | 'r' => some 0x0D
      | 'e' => some 0x1B
      | ' ' | '"' | '\'' | '\\' => some c.toNat
      | 'N' => some 0x85
      | '_' => some 0xA0
      | 'L' => some 0x2028
      | 'P' => some 0x2029
      | _ => none
    value?.map fun n => (Char.ofNat n, 1)

/-- The word at the start of a text between double quotes, and its length as it is written. A
backslash before a line break ends it. The first `pending` characters belong to an escape that is
already read. -/
def doubleWord? (pending : Nat) : List Char → Option (List Char × Nat)
  | [] => some ([], 0)
  | c :: rest =>
    match pending with
    | n + 1 => (doubleWord? n rest).map fun (text, length) => (text, length + 1)
    | 0 =>
      if c == '"' || isGap (some c) then some ([], 0)
      else if c == '\\' then
        if rest.head?.any isLineBreak then some ([], 0)
        else
          match doubleEscape? rest with
          | some (value, width) =>
            (doubleWord? width rest).map fun (text, length) => (value :: text, length + 1)
          | none => none
      else (doubleWord? 0 rest).map fun (text, length) => (c :: text, length + 1)

def quotedWord? (quote : Char) (text : List Char) : Option (List Char × Nat) :=
  if quote == '"' then doubleWord? 0 text else some (singleWord text)

/-- Reads the words of a scalar up to the quote that closes it. A backslash takes the line break
behind it out of the text. -/
def quotedWords? (quote : Char) : Nat → Input → Option (List Char × Input)
  | 0, _ => none
  | fuel + 1, i =>
    match if i.atMark then none else quotedWord? quote i.rest with
    | none => none
    | some (word, length) =>
      let i := i.pass length
      let escaped := i.rest.head? == some '\\'
      let i := if escaped then (i.pass 1).passBreak else i
      match i.rest with
      | [] => none
      | c :: _ =>
        if c == quote then some (word, i.pass 1)
        else
          let (gap, next) := i.gap
          (quotedWords? quote fuel next).map fun (text, i) =>
            (word ++ (if escaped then gap.breaks else gap.text) ++ text, i)

/-- Reads a scalar between quotes, from the first of them on. -/
def quotedScalar? (quote : Char) (i : Input) : Option (List Char × Input) :=
  quotedWords? quote (i.rest.length + 1) (i.pass 1)

/-! ### Blocks -/

/-- What becomes of the line breaks at the end of a block. -/
inductive Chomping
  /-- All are left out. -/
  | strip
  | clip
  /-- All are kept. -/
  | keep
deriving Repr, DecidableEq

def chomping? (c : Char) : Option Chomping :=
  if c == '-' then some .strip else if c == '+' then some .keep else none

/-- The number of blanks that a digit asks for. -/
def increment? (c : Char) : Option Nat :=
  if isDigit c && c != '0' then some (decimalValue [c]) else none

/-- What the signs behind the bar of a block say: its chomping, and the indentation if it is given. -/
def blockHints? : List Char → Option (Chomping × Option Nat)
  | [] => some (.clip, none)
  | [c] =>
    match chomping? c, increment? c with
    | some chomping, _ => some (chomping, none)
    | none, some n => some (.clip, some n)
    | none, none => none
  | [c, d] =>
    match chomping? c, increment? d, increment? c, chomping? d with
    | some chomping, some n, _, _ => some (chomping, some n)
    | _, _, some n, some chomping => some (chomping, some n)
    | _, _, _, _ => none
  | _ => none

/-- Passes empty lines and the indentation of the next line: the line breaks, the greatest
indentation seen, and the place. Without an indentation all spaces belong to it. No tab may stand in
it. -/
def blockBreaks? (indent : Option Nat) : Nat → Input → Option (List Char × Nat × Input)
  | 0, i => some ([], i.column, i)
  | fuel + 1, i =>
    let spaces := (i.rest.takeWhile (· == ' ')).length
    let i := i.pass (indent.elim spaces fun indent => min spaces (indent - i.column))
    if i.rest.head? == some '\t' && indent.all (i.column < ·) then none
    else
      match i.rest.head? with
      | some c =>
        if isLineBreak c then
          (blockBreaks? indent fuel i.passBreak).map fun (breaks, most, next) =>
            (lineEnd c :: breaks, max most i.column, next)
        else some ([], i.column, i)
      | none => some ([], i.column, i)

/-- The lines of a block: its text, the line breaks behind the text, and the place there. -/
def blockLines? (indent : Nat) (breaks : List Char) :
    Nat → Input → Option (List Char × List Char × Input)
  | 0, i => some ([], breaks, i)
  | fuel + 1, i =>
    if i.column == indent && !i.rest.isEmpty then
      let line := i.rest.takeWhile fun c => !isLineBreak c
      let i := i.passLine
      let ending := (i.rest.head?.map lineEnd).toList
      match blockBreaks? (some indent) (i.rest.length + 1) (if i.atBreak then i.passBreak else i) with
      | none => none
      | some (more, _, next) =>
        (blockLines? indent (ending ++ more) fuel next).map fun (text, rest) =>
          (breaks ++ line ++ text, rest)
    else some ([], breaks, i)

/-- Reads a block from its bar on. Its lines are indented by the number of blanks that is given
beyond what stands around it, and otherwise as far as the first of them. -/
def blockScalar? (margin : Nat) (i : Input) : Option (List Char × Input) := do
  let i := i.pass 1
  let hints := i.rest.takeWhile fun c => !isGap (some c) && c != '#'
  let (chomping, increment) ← blockHints? hints
  let i := (i.pass hints.length).passWhile isSpace
  let i := if i.rest.head? == some '#' then i.passLine else i
  guard (i.atBreak || i.rest.isEmpty)
  let i := if i.atBreak then i.passBreak else i
  let given := increment.map (margin - 1 + ·)
  let (breaks, most, i) ← blockBreaks? given (i.rest.length + 1) i
  let indent := given.getD (max most (max margin 1))
  let (text, breaks, i) ← blockLines? indent breaks (i.rest.length + 1) i
  match chomping with
  | .strip => return (text, i)
  | .clip => return (text ++ if text.isEmpty then [] else breaks.take 1, i)
  | .keep => return (text ++ breaks, i)

end LemonScript.Yaml
