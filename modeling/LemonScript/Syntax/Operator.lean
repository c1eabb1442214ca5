/-!
# Operators

Operators are known by their spelling. A tree may hold a spelling that no operator has; it is kept
as it is.
-/

namespace LemonScript

/-- Operators between two operands, the compound assignments included. -/
inductive BinaryOp
  | and | or
  | less | lessEq | equal | notEqual | greaterEq | greater
  | add | sub | mul | div | mod | pow
  | addAssign | subAssign
  | other (spelling : String)
deriving Repr, DecidableEq

/-- Operators with one operand. -/
inductive UnaryOp
  | neg | not | increment | decrement
  | other (spelling : String)
deriving Repr, DecidableEq

namespace BinaryOp

def spelling : BinaryOp → String
  | and => "&&"
  | or => "||"
  | less => "<"
  | lessEq => "<="
  | equal => "=="
  | notEqual => "!="
  | greaterEq => ">="
  | greater => ">"
  | add => "+"
  | sub => "-"
  | mul => "*"
  | div => "/"
  | mod => "%"
  | pow => "^"
  | addAssign => "+="
  | subAssign => "-="
  | other spelling => spelling

/-- The operators that have a spelling of their own. -/
def known : List BinaryOp :=
  [and, or, less, lessEq, equal, notEqual, greaterEq, greater, add, sub, mul, div, mod, pow,
   addAssign, subAssign]

def ofSpelling (text : String) : BinaryOp :=
  (known.find? fun op => op.spelling == text).getD (other text)

end BinaryOp

namespace UnaryOp

def spelling : UnaryOp → String
  | neg => "-"
  | not => "!"
  | increment => "++"
  | decrement => "--"
  | other spelling => spelling

def known : List UnaryOp := [neg, not, increment, decrement]

def ofSpelling (text : String) : UnaryOp :=
  (known.find? fun op => op.spelling == text).getD (other text)

end UnaryOp

end LemonScript
