import Std.Data.TreeMap
import LemonScript.Syntax.Node
import LemonScript.Token.Scanner
/-!
# Rules of the grammar

A rule reads a prefix of what is left of the source, or fails. Alternatives are tried in order, so a
failure is no error: it leaves a state in which the scanner may have passed some blanks, and the
caller goes back as far as it needs. Only two things end a parse at once, a number too large for a
double and a recursion deeper than any source needs.
-/

namespace LemonScript

/-- What the rule for variables found at an offset: a node, or that there is none, and the place
behind it. -/
structure Remembered where
  node? : Option Node
  stop : Cursor

/-- A scanner, and what was found at the offsets where a variable was looked for. A state without a
memory looks afresh every time. -/
structure ParseState where
  scanner : Scanner
  memory : Option (Std.TreeMap Nat Remembered)

namespace ParseState

def cursor (s : ParseState) : Cursor := s.scanner.cursor

def reset (s : ParseState) (c : Cursor) : ParseState := { s with scanner := s.scanner.reset c }

/-- What was found at an offset earlier. -/
def remembered? (s : ParseState) (offset : Nat) : Option Remembered :=
  s.memory.bind fun table => table[offset]?

/-- Keeps what was found at an offset. -/
def remember (s : ParseState) (offset : Nat) (r : Remembered) : ParseState :=
  { s with memory := s.memory.map fun table => table.insert offset r }

end ParseState

/-- Why a parse ends at once. -/
inductive Abort
  /-- The digits of a number that no double comes near to. -/
  | outOfRange (digits : String)
  /-- The rules were not nested deep enough for the source. -/
  | tooDeep
deriving Repr, DecidableEq

namespace Abort

def message : Abort → String
  | outOfRange digits => "strconv.ParseFloat: parsing " ++ quoted digits ++ ": value out of range"
  | tooDeep => "nested too deeply"

end Abort

/-- How a rule ends. -/
inductive Outcome (α : Type)
  | matched (value : α) (state : ParseState)
  | failed (state : ParseState)
  | aborted (reason : Abort)

def Rule (α : Type) : Type := ParseState → Outcome α

namespace Rule

variable {α β : Type}

protected def pure (a : α) : Rule α := fun s => .matched a s

/-- Runs a rule, and then another one that may depend on what the first one read. -/
protected def bind (r : Rule α) (f : α → Rule β) : Rule β := fun s =>
  match r s with
  | .matched a s => f a s
  | .failed s => .failed s
  | .aborted reason => .aborted reason

instance : Monad Rule where
  pure := Rule.pure
  bind := Rule.bind

def fail : Rule α := fun s => .failed s

def abort (reason : Abort) : Rule α := fun _ => .aborted reason

def mark : Rule Cursor := fun s => .matched s.cursor s

def onFailure (c : Cursor) (r : Rule α) : Rule α := fun s =>
  match r s with
  | .failed s => .failed (s.reset c)
  | outcome => outcome

def rewinding (r : Rule α) : Rule α := fun s => onFailure s.cursor r s

/-- Runs a rule, and a second one from the state in which the first one failed. -/
protected def orElse (r : Rule α) (second : Unit → Rule α) : Rule α := fun s =>
  match r s with
  | .failed s => second () s
  | outcome => outcome

instance : OrElse (Rule α) := ⟨Rule.orElse⟩

def attempt (r : Rule α) : Rule (Option α) := fun s =>
  match r s with
  | .matched a s => .matched (some a) s
  | .failed s => .matched none s
  | .aborted reason => .aborted reason

/-- Tries rules in order, all from the same place. -/
def choice : List (Rule α) → Rule α
  | [] => fail
  | r :: rs => rewinding r <|> choice rs

/-- Repeats a rule until it fails, at most `limit` times. -/
def many (r : Rule α) : Nat → Rule (List α)
  | 0 => abort .tooDeep
  | limit + 1 => fun s =>
    match r s with
    | .matched a s =>
      match many r limit s with
      | .matched as s => .matched (a :: as) s
      | .failed s => .failed s
      | .aborted reason => .aborted reason
    | .failed s => .matched [] s
    | .aborted reason => .aborted reason

/-- Extends a value by a rule until that fails, at most `limit` times. -/
def extend (r : α → Rule α) : Nat → α → Rule α
  | 0, _ => abort .tooDeep
  | limit + 1, a => fun s =>
    match r a s with
    | .matched a s => extend r limit a s
    | .failed s => .matched a s
    | .aborted reason => .aborted reason

/-! ### Tokens -/

/-- Asks the scanner whether something comes next. -/
def ofTest (f : Scanner → Bool × Scanner) : Rule Unit := fun s =>
  match f s.scanner with
  | (true, scanner) => .matched () { s with scanner }
  | (false, scanner) => .failed { s with scanner }

/-- Asks the scanner for a token. -/
def ofScan (f : Scanner → Option α × Scanner) : Rule α := fun s =>
  match f s.scanner with
  | (some a, scanner) => .matched a { s with scanner }
  | (none, scanner) => .failed { s with scanner }

def keyword (k : Keyword) : Rule Unit := ofTest (·.keyword k)

def operator (op : String) : Rule Unit := ofTest (·.operator op)

def identifier : Rule String := do
  return (← ofScan Scanner.identifier).text

/-- The first of the keywords that comes next. -/
def anyKeyword : List Keyword → Rule Keyword
  | [] => fail
  | k :: ks => (do keyword k; return k) <|> anyKeyword ks

/-- The first of the operators that comes next. -/
def anyOperator : List BinaryOp → Rule BinaryOp
  | [] => fail
  | op :: ops => (do operator op.spelling; return op) <|> anyOperator ops

/-- Items with commas between them, perhaps none. A comma that no item follows is left alone. -/
def separated (item : Rule α) (limit : Nat) : Rule (List α) := do
  match ← attempt item with
  | none => return []
  | some first =>
    let rest ← many (do
      let start ← mark
      operator ","
      onFailure start item) limit
    return first :: rest

end Rule

end LemonScript
