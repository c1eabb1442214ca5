import LemonScript.Number.FloatText
import LemonScript.Typing.Relation
import LemonScript.Typing.Scope
/-!
# Checks on analyzed nodes
-/

namespace LemonScript

namespace Analysis

def expect (r : Requirement) (n : Node) : Analysis Unit :=
  require (r.admits n.typeOf) (.required r n.typeOf)

def sameType (a b : Node) : Analysis Unit :=
  require (a.typeOf.equivalent b.typeOf) .operandMismatch

def assignableTo (n : Node) (t : Ty) : Analysis Unit :=
  require (n.typeOf.assignable t) (.notAssignable n.typeOf t)

/-- Constants and functions cannot be assigned to. -/
def notConstant : Node → Analysis Unit
  | .var v => require (!v.isConst) (.constantTarget v.name)
  | .fn f => reject (.constantTarget f.name)
  | _ => pure ()

def uniform (part : LiteralPart) : List Node → Analysis Unit
  | [] => pure ()
  | first :: rest => require (rest.all fun n => n.typeOf.equivalent first.typeOf) (.notUniform part)

def argumentsFit : List Node → List Ty → Analysis Unit
  | arg :: args, t :: ts => do
    assignableTo arg t
    argumentsFit args ts
  | _, _ => pure ()

/-- Two keys with the same print are certainly equal when the program runs; about other keys nothing
is known. -/
def keyPrint? : Node → Option String
  | .intLit value => some ("i" ++ toString value)
  | .floatLit value => some ("f" ++ floatText value)
  | .stringLit value => some ("s" ++ quoted value)
  | .boolLit _ value _ => some ("b" ++ toString value)
  | .var v => some ("v" ++ toString v.id)
  | _ => none

def distinct : List String → Bool
  | [] => true
  | p :: ps => !ps.contains p && distinct ps

def distinctKeys (keys : List Node) : Analysis Unit :=
  require (distinct (keys.filterMap keyPrint?)) .repeatedKey

end Analysis

end LemonScript
