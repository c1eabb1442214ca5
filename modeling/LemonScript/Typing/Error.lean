import LemonScript.Syntax.Fault
/-!
# Mistakes in the meaning of a program

What analysis finds wrong with a program that the grammar accepts.
-/

namespace LemonScript

/-- What an operand has to be. -/
inductive Requirement
  | number
  | numberOrString
  | boolean
  | integer
deriving Repr, DecidableEq

namespace Requirement

def text : Requirement → String
  | number => "a number"
  | numberOrString => "a number or string"
  | boolean => "a boolean"
  | integer => "an integer"

/-- Whether a type meets the requirement. -/
def admits : Requirement → Ty → Bool
  | number, .int => true
  | number, .float => true
  | numberOrString, .int => true
  | numberOrString, .float => true
  | numberOrString, .string => true
  | boolean, .boolean => true
  | integer, .int => true
  | _, _ => false

end Requirement

inductive LiteralPart
  | elements
  | keys
  | values
deriving Repr, DecidableEq

namespace LiteralPart

def text : LiteralPart → String
  | elements => "elements"
  | keys => "keys"
  | values => "values"

end LiteralPart

/-- A mistake in the meaning of a program. -/
inductive SemanticError
  | alreadyDeclared (name : String)
  | notDeclared (name : String)
  | typeExpected
  | classDeclared
  | returnOutsideFunction
  | valueMissing
  | valueUnwanted
  | chopOutsideLoop
  | nextOutsideLoop
  | arrayExpected
  | mapExpected
  | wrongKey (expected found : Ty)
  | notCallable
  | argumentCount (wanted passed : Nat)
  | caseMismatch
  | notUniform (part : LiteralPart)
  | repeatedKey
  | required (requirement : Requirement) (found : Ty)
  | operandMismatch
  | notAssignable (source target : Ty)
  | constantTarget (name : String)
deriving Repr

namespace SemanticError

def message : SemanticError → String
  | alreadyDeclared name => s!"Identifier {name} already declared"
  | notDeclared name => s!"Identifier {name} not declared"
  | typeExpected => "Type expected"
  | classDeclared => "Classes are not supported"
  | returnOutsideFunction => "Return can only appear in a function"
  | valueMissing => "Something should be returned here"
  | valueUnwanted => "Cannot return a value here"
  | chopOutsideLoop => "Break can only appear in a loop"
  | nextOutsideLoop => "Continue can only appear in a loop"
  | arrayExpected => "Array expected"
  | mapExpected => "Dictionary expected"
  | wrongKey expected found => s!"Expected a {expected.describe} key, found {found.describe}"
  | notCallable => "Call of non-function"
  | argumentCount wanted passed => s!"{wanted} argument(s) required but {passed} passed"
  | caseMismatch => "Not all cases have the same type as the expression passed in"
  | notUniform part => s!"Not all {part.text} have the same type"
  | repeatedKey => "Keys must be distinct"
  | required requirement found => s!"Expected {requirement.text}, found {found.describe}"
  | operandMismatch => "Operands do not have the same type"
  | notAssignable source target => s!"Cannot assign a {source.describe} to a {target.describe}"
  | constantTarget name => s!"Cannot assign to constant {name}"

end SemanticError

/-- Why a tree cannot be analyzed. -/
inductive AnalysisError
  | semantic (error : SemanticError)
  | fault (fault : Fault)
deriving Repr

end LemonScript
