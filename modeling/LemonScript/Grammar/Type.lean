import LemonScript.Grammar.Basic
/-!
# Types in the source

A declared type is a primitive keyword or a map type, with any number of `[]` behind it. Parameters
and results may also name a type by an identifier, which analysis resolves or rejects.
-/

namespace LemonScript

open Rule

namespace Grammar

/-- The primitive types, in the order in which they are looked for. -/
def primitiveTypes : List Keyword := [.stringType, .intType, .boolType, .floatType]

/-- `<K, V>` behind its opening bracket. -/
def mapTypeRest (g : Rules) : Rule Ty := do
  let key ← g.type
  operator ","
  let value ← g.type
  operator ">"
  return .map key value

def elementType (g : Rules) : Rule Ty := do
  let start ← mark
  match ← attempt (anyKeyword primitiveTypes) with
  | some k => return .named k.spelling
  | none =>
    operator "<"
    onFailure start (mapTypeRest g)

def type (g : Rules) : Rule Ty := do
  let element ← elementType g
  extend (fun t => do operator "[]"; return .array t) g.limit element

/-- A type of a parameter or of a result. -/
def bindingType (g : Rules) : Rule Ty :=
  type g <|> (do return .named (← identifier))

end Grammar

end LemonScript
