import LemonScript.Syntax.Node
/-!
# Faults

A tree that was put together by hand may hold a node where no stage knows what to do with it. That
is no mistake of a program in the language, and it is reported as a fault. No tree that comes from a
source meets one.
-/

namespace LemonScript

inductive Fault
  /-- A node of this kind cannot stand there; an empty place has no kind. -/
  | unhandled (kind : Option String)
  | unknownOperator (spelling : String)
  /-- Nothing can be put in the place of a variable in a node of this kind. -/
  | notSubstitutable (kind : Option String)
  /-- A node of this kind is folded as a number. -/
  | notANumber (kind : Option String)
  /-- The text of a composite type stands for an entity. -/
  | notAType (name : String)
  /-- A declaration or a loop has no entity. -/
  | absentEntity
  /-- A function that is used has no signature yet. -/
  | absentSignature
  /-- An access of an array has no index. -/
  | absentIndex
deriving Repr, DecidableEq

namespace Fault

def ofNode (n : Node) : Fault := unhandled n.kindName?

/-- The name of a kind in a message. -/
def kindText : Option String → String
  | some kind => "*ast." ++ kind
  | none => "<nil>"

def message : Fault → String
  | unhandled kind => "unhandled node " ++ kindText kind
  | unknownOperator spelling => "unknown operator " ++ spelling
  | notSubstitutable kind => "cannot substitute into " ++ kindText kind
  | notANumber kind => "not a number: " ++ kindText kind
  | notAType name => "not a type: " ++ name
  | absentEntity => "absent entity"
  | absentSignature => "absent signature"
  | absentIndex => "absent index"

end Fault

end LemonScript
