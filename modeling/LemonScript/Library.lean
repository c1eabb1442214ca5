import LemonScript.Syntax.Entity
import LemonScript.Token.Keyword
/-!
# The library

The names that every program starts with: the primitive types, the functions `pour` and `species`,
and the constant `π`. Library entities have numbers below those of the program's own.
-/

namespace LemonScript

namespace Library

def firstUserId : Int := 100

def isLibrary (id : Int) : Bool := id < firstUserId

def pour : Function where
  id := 1
  name := Keyword.pour.spelling
  signature := some ⟨[.any], .void⟩

/-- The name of a value's kind. -/
def species : Function where
  id := 2
  name := Keyword.species.spelling
  signature := some ⟨[.any], .string⟩

def pi : Variable where
  id := 3
  name := "π"
  isConst := true
  type := .float

/-- The primitive types by their spelling. -/
def types : List (String × Ty) :=
  [(Keyword.intType.spelling, .int), (Keyword.floatType.spelling, .float),
   (Keyword.boolType.spelling, .boolean), (Keyword.stringType.spelling, .string),
   (Keyword.voidType.spelling, .void)]

def functions : List Function := [pour, species]

def constants : List Variable := [pi]

end Library

end LemonScript
