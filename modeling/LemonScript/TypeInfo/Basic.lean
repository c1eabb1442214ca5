import LemonScript.Syntax.Node
/-!
# Type information

What is known about a compiled program from outside: its package and the signatures of its top-level
functions, in ascending order of their names.
-/

namespace LemonScript

/-- The package of a program and the printed types of its functions. A description that was read
from elsewhere may have no list of functions at all. -/
structure TypeInfo where
  package : String
  functions : Option (List (String × String))
deriving Repr, DecidableEq, Inhabited

namespace TypeInfo

/-- Adds an entry to an ascending list, or replaces the one with the same name. -/
def put (name type : String) : List (String × String) → List (String × String)
  | [] => [(name, type)]
  | (n, t) :: rest =>
    if name < n then (name, type) :: (n, t) :: rest
    else if name == n then (name, type) :: rest
    else (n, t) :: put name type rest

/-- A top-level function that analysis gave a signature. -/
structure Exported where
  name : String
  params : List Parameter
  signature : Signature

/-- The function that a statement declares. -/
def exported? : Node → Option Exported
  | .funDecl name _ _ params _ (some f) => f.signature.map fun s => ⟨name, params.getD [], s⟩
  | _ => none

def exports (p : Program) : List Exported := (p.statements.getD []).filterMap exported?

/-- The description of an analyzed program. -/
def collect (package : String) (p : Program) : TypeInfo where
  package := package
  functions := some ((exports p).foldl (fun fs e => put e.name e.signature.ty.text fs) [])

end TypeInfo

end LemonScript
