import LemonScript.Yaml.Character
/-!
# Places in a settings file

Layout has a meaning here, so a place knows its line and its column. Blanks and line breaks between
two words are read together, as a gap.
-/

namespace LemonScript.Yaml

/-- A place in a text: the characters ahead of it, its line and column, and the number of characters
behind it. -/
structure Input where
  rest : List Char
  line : Nat
  column : Nat
  offset : Nat
deriving Repr, DecidableEq, Inhabited

/-- A run of blanks and line breaks: the blanks on the first line, and each line break with the
blanks behind it. -/
structure Gap where
  blanks : List Char
  lines : List (Char × List Char)
deriving Repr, DecidableEq

namespace Gap

/-- The gap that a run of blanks and line breaks is. A carriage return and a newline are one line
break. -/
def ofRun : List Char → Gap
  | [] => ⟨[], []⟩
  | '\r' :: '\n' :: rest =>
    let gap := ofRun rest
    ⟨[], ('\n', gap.blanks) :: gap.lines⟩
  | c :: rest =>
    let gap := ofRun rest
    if isLineBreak c then ⟨[], (lineEnd c, gap.blanks) :: gap.lines⟩
    else ⟨c :: gap.blanks, gap.lines⟩

def breaks (g : Gap) : List Char := g.lines.map Prod.fst

def isEmpty (g : Gap) : Bool := g.blanks.isEmpty && g.lines.isEmpty

/-- What stands for a gap between two words of a scalar: a single newline is a space, and the first
of several is left out. -/
def text (g : Gap) : List Char :=
  match g.breaks with
  | [] => g.blanks
  | ['\n'] => [' ']
  | '\n' :: more => more
  | breaks => breaks

/-- Whether a tab stands before a column on a line that begins in the gap. -/
def hasTabBefore (g : Gap) (column : Nat) : Bool :=
  g.lines.any fun (_, blanks) => (blanks.take column).contains '\t'

end Gap

namespace Input

def ofText (text : List Char) : Input := ⟨text, 0, 0, 0⟩

/-- Passes `n` characters of a line. -/
def pass (i : Input) (n : Nat) : Input :=
  { i with rest := i.rest.drop n, column := i.column + n, offset := i.offset + n }

def passBreak (i : Input) : Input :=
  let length := if i.rest.take 2 == ['\r', '\n'] then 2 else 1
  ⟨i.rest.drop length, i.line + 1, 0, i.offset + length⟩

/-- Passes the characters at the front that have a property. -/
def passWhile (i : Input) (p : Char → Bool) : Input := i.pass (i.rest.takeWhile p).length

/-- Passes what is left of the line. -/
def passLine (i : Input) : Input := i.passWhile fun c => !isLineBreak c

def atBreak (i : Input) : Bool := i.rest.head?.any isLineBreak

/-- The gap at a place, and the place behind it. -/
def gap (i : Input) : Gap × Input :=
  let run := i.rest.takeWhile fun c => isSpace c || isLineBreak c
  let gap := Gap.ofRun run
  let column :=
    match gap.lines.getLast? with
    | some (_, blanks) => blanks.length
    | none => i.column + run.length
  (gap, ⟨i.rest.drop run.length, i.line + gap.lines.length, column, i.offset + run.length⟩)

/-- Whether a line begins here with three equal characters and nothing close behind them. -/
def startsMark (i : Input) (c : Char) : Bool :=
  i.column == 0 && i.rest.take 3 == [c, c, c] && isGap (i.rest.drop 3).head?

def atMark (i : Input) : Bool := i.startsMark '-' || i.startsMark '.'

end Input

end LemonScript.Yaml
