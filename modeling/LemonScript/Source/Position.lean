import LemonScript.Source.Line
/-!
# Positions in a source

Lines and columns count from one, and columns count code points. A position knows the file it is in;
a source without a name has the empty one.
-/

namespace LemonScript

structure Position where
  line : Int
  column : Int
  filename : String
deriving Repr, DecidableEq, Inhabited

namespace Position

def text (p : Position) : String :=
  let place := s!"Line {p.line}, col {p.column}"
  if p.filename == "" then place else s!"{p.filename}: {place}"

/-- The position of an offset of a source; an offset beyond the end stands for the end. -/
def ofOffset (filename : String) (source : List Char) (offset : Nat) : Position :=
  let offset := min offset source.length
  let starts := lineStarts source
  let line := lineNumber starts offset
  ⟨line + 1, offset - starts.getD line 0 + 1, filename⟩

end Position

/-- A stretch of a file. -/
structure Span where
  start : Position
  stop : Position
deriving Repr, DecidableEq

namespace Span

/-- The stretch that holds only one place. -/
def single (p : Position) : Span := ⟨p, p⟩

def text (s : Span) : String :=
  s!"{s.start.text}-{s.stop.line}:{s.stop.column}"

end Span

end LemonScript
