import LemonScript.Grammar.Rule
/-!
# Levels of the grammar

Expressions, statements and types contain each other. A rule is written in terms of the rules one
level further in; behind each step inwards at least one character is read, so a source needs no
more levels than it has characters.
-/

namespace LemonScript

/-- The rules one level further in, and how often a rule may be repeated. -/
structure Rules where
  limit : Nat
  type : Rule Ty
  unary : Rule Node
  power : Rule Node
  expression : Rule Node
  statement : Rule Node

/-- The innermost level, which no parse reaches. -/
def Rules.tooDeep (limit : Nat) : Rules where
  limit := limit
  type := .abort .tooDeep
  unary := .abort .tooDeep
  power := .abort .tooDeep
  expression := .abort .tooDeep
  statement := .abort .tooDeep

end LemonScript
