import LemonScript.Syntax.Ty
/-!
# Entities

What names stand for after analysis: variables and functions. Two uses mean the same entity when
they carry the same number.
-/

namespace LemonScript

/-- The types of the parameters and of the result of a function. -/
structure Signature where
  params : List Ty
  result : Ty
deriving Repr, BEq, Inhabited

/-- The type of functions with this signature. -/
def Signature.ty (s : Signature) : Ty := .func s.params s.result

structure Variable where
  id : Int
  name : String
  isConst : Bool
  type : Ty
deriving Repr, BEq, Inhabited

structure Function where
  id : Int
  name : String
  signature : Option Signature
deriving Repr, BEq, Inhabited

/-- The type of a function; one without a signature has none. -/
def Function.ty (f : Function) : Ty :=
  match f.signature with
  | some s => s.ty
  | none => .nothing

end LemonScript
