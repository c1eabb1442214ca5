import LemonScript.Grammar.Statement
/-!
# Programs in the source

A program is a list of imports and a list of statements, and nothing may follow them.
-/

namespace LemonScript

open Rule

inductive ParseError
  | syntactic (error : SyntaxError)
  | aborted (reason : Abort)
deriving Repr, DecidableEq

namespace Grammar

def importing : Rule Import := rewinding do
  keyword .receive
  let name ← identifier
  keyword .source
  let source ← identifier
  return ⟨name, source⟩

def program (g : Rules) : Rule Program := do
  let imports ← many importing g.limit
  let body ← statements g
  ofTest Scanner.atEnd
  return ⟨imports, presentIfAny body⟩

def around (g : Rules) : Rules where
  limit := g.limit
  type := type g
  unary := unary g
  power := power g
  expression := expression g
  statement := statement g

def rules (limit : Nat) : Nat → Rules
  | 0 => .tooDeep limit
  | levels + 1 => around (rules limit levels)

def parseFrom (s : ParseState) : Except ParseError Program :=
  let size := s.scanner.source.length + 2
  match program (rules size size) s with
  | .matched p _ => .ok p
  | .failed s => .error (.syntactic s.scanner.error)
  | .aborted reason => .error (.aborted reason)

end Grammar

/-- Reads a program from the text of a file. -/
def Program.parse (filename source : String) : Except ParseError Program :=
  Grammar.parseFrom ⟨Scanner.ofSource filename source, some {}⟩

end LemonScript
