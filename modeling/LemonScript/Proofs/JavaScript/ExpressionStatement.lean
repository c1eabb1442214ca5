import LemonScript.Proofs.JavaScript.Unambiguous
/-!
# Expressions as statements

A line of JavaScript is an expression statement if it is an expression with a semicolon behind it and does not
begin with a brace, which opens a block. The text of an expression begins with a brace exactly if the expression
is a map literal.
-/

namespace LemonScript

def Node.isMapLiteral : Node → Bool
  | .mapLit .. => true
  | _ => false

namespace JavaScript

/-- The expression of a line that is read as an expression statement. No expression begins with one of the words
that begin other statements, since they are reserved. -/
def Term.ofStatement? (text : String) : Option Term :=
  (lexemes text).bind fun ts =>
    if ts.head? = some (.mark (.opening .curly)) then none
    else if ts.getLast? = some (.mark .semicolon) then read .operand [] ts.dropLast
    else none

/-! ### Braces -/

variable {table : List Int} {text : String} {t : Term}

section Statement

variable {R : Roster} {E : Vocabulary} {n : Node}

end Statement

end JavaScript

end LemonScript
