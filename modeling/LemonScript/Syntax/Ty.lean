/-!
# Types

The types of lemonScript values. The two empty literals have types of their own, which stand in for
any array and any map. A tree that was not analyzed yet holds type names as they are spelled, and
nodes that are no expressions have no type at all.
-/

namespace LemonScript

/-- The types that have no parts. -/
inductive BaseTy
  | int | float | boolean | string | void | any | emptyArray | emptyMap
deriving Repr, DecidableEq, Inhabited

/-- A type, a spelled name of one, or nothing. -/
inductive Ty
  | nothing
  | base (b : BaseTy)
  | array (member : Ty)
  | map (key value : Ty)
  | func (params : List Ty) (result : Ty)
  | named (name : String)
deriving Repr, BEq, Inhabited

namespace BaseTy

def text : BaseTy → String
  | int => "int"
  | float => "float"
  | boolean => "boolean"
  | string => "string"
  | void => "void"
  | any => "any"
  | emptyArray => "[]"
  | emptyMap => "\x7b\x7d"

end BaseTy

namespace Ty

@[match_pattern] abbrev int : Ty := base .int
@[match_pattern] abbrev float : Ty := base .float
@[match_pattern] abbrev boolean : Ty := base .boolean
@[match_pattern] abbrev string : Ty := base .string
@[match_pattern] abbrev void : Ty := base .void
@[match_pattern] abbrev any : Ty := base .any
@[match_pattern] abbrev emptyArray : Ty := base .emptyArray
@[match_pattern] abbrev emptyMap : Ty := base .emptyMap

mutual

/-- The printed type. A function that has no result type is printed as one that gives nothing
back. -/
def text : Ty → String
  | nothing => "%!s(<nil>)"
  | base b => b.text
  | array member => "[" ++ member.text ++ "]"
  | map key value => "<" ++ key.text ++ "," ++ value.text ++ ">"
  | func params nothing => "(" ++ ",".intercalate (texts params) ++ ")->void"
  | func params result => "(" ++ ",".intercalate (texts params) ++ ")->" ++ result.text
  | named name => name

def texts : List Ty → List String
  | [] => []
  | t :: ts => t.text :: texts ts

end

/-- The printed type in a message, where a node without a type has nothing. -/
def describe : Ty → String
  | nothing => "nothing"
  | t => t.text

end Ty

end LemonScript
