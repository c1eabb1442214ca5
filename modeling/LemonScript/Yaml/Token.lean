import LemonScript.Yaml.Scalar
/-!
# Tokens of a settings file

Layout becomes tokens too: a collection without brackets begins where its first member stands further
in than what is around it, and ends before a line that stands further out. That a scalar is a key is
only seen at the colon behind it; a key has to stand on one line, and the tokens that open it are then
put in front of it. Main definition: `tokensOf`.
-/

namespace LemonScript.Yaml

inductive Token
  | documentStart
  | documentEnd
  | listStart
  | mappingStart
  | layoutEnd
  | bracketOpen
  | bracketClose
  | braceOpen
  | braceClose
  | comma
  | dash
  | key
  | value
  | scalar (text : String) (plain : Bool)
  | textEnd
deriving Repr, DecidableEq

/-- A token that may turn out to be a key: the number of tokens before it, its place, and whether a
line that begins with it makes sense only if it is one. -/
structure KeyStart where
  index : Nat
  place : Input
  required : Bool
deriving Repr, DecidableEq

/-- The number of characters that a key may have up to its colon. -/
def maxKeyLength : Nat := 1024

/-- The state of reading tokens. A margin is the least column of what belongs to a collection without
brackets. Outside brackets and for every bracket that is open there may be the start of a key. -/
structure Scan where
  input : Input
  tokens : Array Token
  margins : List Nat
  key? : Option KeyStart
  outerKeys : List (Option KeyStart)
  keyAllowed : Bool
deriving Repr, DecidableEq

namespace Scan

def ofText (text : List Char) : Scan where
  input := .ofText text
  tokens := #[]
  margins := []
  key? := none
  outerKeys := []
  keyAllowed := true

def inFlow (s : Scan) : Bool := !s.outerKeys.isEmpty

def margin (s : Scan) : Nat := s.margins.headD 0

/-- Ends the collections without brackets whose margin is greater. -/
def unroll (s : Scan) (margin : Nat) : Scan :=
  if s.inFlow then s
  else
    let ended := s.margins.takeWhile (· > margin)
    { s with
      tokens := s.tokens ++ Array.replicate ended.length .layoutEnd
      margins := s.margins.drop ended.length }

/-- Begins a collection at a column, if that is not outside the margin. The token goes before the
one with the index. -/
def roll (s : Scan) (column index : Nat) (t : Token) : Scan :=
  if s.inFlow || column < s.margin then s
  else
    { s with
      tokens := s.tokens.insertIdxIfInBounds index t
      margins := (column + 1) :: s.margins }

/-- Gives up the start of a key; where that was required, it is an error. -/
def dropKey (s : Scan) : Option Scan :=
  if s.key?.any KeyStart.required then none else some { s with key? := none }

/-- Notes that a key may start here. -/
def saveKey (s : Scan) : Option Scan :=
  if s.keyAllowed then
    let required := !s.inFlow && s.margin == s.input.column + 1
    s.dropKey.map fun s => { s with key? := some ⟨s.tokens.size, s.input, required⟩ }
  else some s

/-- Whether a key that starts at a place can no longer end at another. -/
def isStale (start now : Input) : Bool :=
  start.line < now.line || start.offset + maxKeyLength < now.offset

/-- Gives up the starts of keys that are too far behind. -/
def dropStaleKeys (s : Scan) : Option Scan :=
  let isOld (k : KeyStart) : Bool := isStale k.place s.input
  let fresh := Option.filter fun k => !isOld k
  if (s.key? :: s.outerKeys).any fun k? => k?.any fun k => k.required && isOld k then none
  else some { s with key? := fresh s.key?, outerKeys := s.outerKeys.map fresh }

/-- Passes the blanks, comments and line breaks before a token. Where a key may start, a tab is no
blank. Outside brackets a new line may start a key. -/
def toToken : Nat → Scan → Scan
  | 0, s => s
  | fuel + 1, s =>
    let tabs := s.inFlow || !s.keyAllowed
    let i := s.input.passWhile fun c => c == ' ' || tabs && c == '\t'
    let i := if i.rest.head? == some '#' then i.passLine else i
    if i.atBreak then
      toToken fuel { s with input := i.passBreak, keyAllowed := s.keyAllowed || !s.inFlow }
    else { s with input := i }

def emit (s : Scan) (t : Token) (length : Nat) (keyAllowed : Bool) : Scan :=
  { s with tokens := s.tokens.push t, input := s.input.pass length, keyAllowed }

/-- Adds a scalar that ends at a place. -/
def emitScalar (s : Scan) (text : List Char) (plain : Bool) (next : Input) (keyAllowed : Bool) : Scan :=
  { s with tokens := s.tokens.push (.scalar (.ofList text) plain), input := next, keyAllowed }

def documentMark? (s : Scan) (t : Token) : Option Scan :=
  (s.unroll 0).dropKey.map fun s => s.emit t 3 false

/-- Reads an opening bracket. -/
def opening? (s : Scan) (t : Token) : Option Scan :=
  s.saveKey.map fun s =>
    { s.emit t 1 true with key? := none, outerKeys := s.key? :: s.outerKeys }

/-- Reads a closing bracket. -/
def closing? (s : Scan) (t : Token) : Option Scan :=
  s.dropKey.map fun s =>
    { s.emit t 1 false with key? := s.outerKeys.headD none, outerKeys := s.outerKeys.tail }

/-- Reads a sign that begins a member of a collection, which it opens if there is none yet. -/
def member? (s : Scan) (start t : Token) (keyAllowed : Bool) : Option Scan :=
  if s.inFlow then s.dropKey.map fun s => s.emit t 1 keyAllowed
  else if s.keyAllowed then
    (s.roll s.input.column s.tokens.size start).dropKey.map fun s => s.emit t 1 keyAllowed
  else none

def colon? (s : Scan) : Option Scan :=
  match s.key? with
  | some k =>
    let s := { s with tokens := s.tokens.insertIdxIfInBounds k.index .key, key? := none }
    some ((s.roll k.place.column k.index .mappingStart).emit .value 1 false)
  | none => s.member? .mappingStart .value !s.inFlow

def quoted? (s : Scan) (quote : Char) : Option Scan := do
  let s ← s.saveKey
  let (text, next) ← quotedScalar? quote s.input
  return s.emitScalar text false next false

def block? (s : Scan) : Option Scan := do
  let s ← s.dropKey
  let (text, next) ← blockScalar? s.margin s.input
  return s.emitScalar text false next true

def plain? (s : Scan) : Option Scan := do
  let s ← s.saveKey
  let p ← plainScalar? s.inFlow s.margin s.input
  return s.emitScalar p.text true p.next p.newLine

/-- Reads the token that begins with a character. -/
def token? (s : Scan) (c : Char) (rest : List Char) : Option Scan :=
  let isSign := isGap rest.head?
  if s.input.startsMark '-' then s.documentMark? .documentStart
  else if s.input.startsMark '.' then s.documentMark? .documentEnd
  else
    match c with
    | '[' => s.opening? .bracketOpen
    | '\x7b' => s.opening? .braceOpen
    | ']' => s.closing? .bracketClose
    | '\x7d' => s.closing? .braceClose
    | ',' => s.dropKey.map fun s => s.emit .comma 1 true
    | '\'' => s.quoted? '\''
    | '"' => s.quoted? '"'
    | _ =>
      if c == '-' && isSign then s.member? .listStart .dash true
      else if c == '?' && (s.inFlow || isSign) then s.member? .mappingStart .key !s.inFlow
      else if c == ':' && (s.inFlow || isSign) then s.colon?
      else if c == '|' && !s.inFlow then s.block?
      else if startsPlain s.inFlow (c :: rest) then s.plain?
      else none

def finish? (s : Scan) : Option Scan :=
  (s.unroll 0).dropKey.map fun s => s.emit .textEnd 0 false

/-- The tokens of a text. Behind an error there are none, so that only a text without one ends in
the token for its end. -/
def run : Nat → Scan → Array Token
  | 0, s => s.tokens
  | fuel + 1, s =>
    match (s.toToken (s.input.rest.length + 1)).dropStaleKeys with
    | none => s.tokens
    | some t =>
      match t.input.rest with
      | [] => (t.finish?.getD s).tokens
      | c :: rest =>
        match (t.unroll (t.input.column + 1)).token? c rest with
        | none => s.tokens
        | some next => run fuel next

end Scan

def tokensOf (text : List Char) : List Token :=
  (Scan.run (text.length + 1) (.ofText text)).toList

end LemonScript.Yaml
