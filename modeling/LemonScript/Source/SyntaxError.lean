import LemonScript.Source.Position
/-!
# Syntax errors

A source that does not match the grammar is reported at one place, with everything that the grammar
would have accepted there.
-/

namespace LemonScript

structure SyntaxError where
  expected : List String
  location : Position
deriving Repr, DecidableEq, Inhabited

def SyntaxError.message (e : SyntaxError) : String :=
  match e.expected with
  | [] => e.location.text ++ ": syntax error"
  | expected => e.location.text ++ ": expected " ++ ", ".intercalate expected

end LemonScript
