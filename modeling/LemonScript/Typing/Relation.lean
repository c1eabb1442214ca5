import LemonScript.Syntax.Ty
/-!
# Relations between types

Two types are equivalent when they could be the same type once each empty literal has found the type
that it stands for. A value may be stored where a type is expected when the types are equivalent, or
when the expected type has `any` in the place of something else; arrays and maps follow their parts.
-/

namespace LemonScript

namespace Ty

mutual

/-- Whether two types have a common instance. -/
def equivalent : Ty → Ty → Bool
  | nothing, nothing => true
  | base b, base b' => b == b'
  | emptyArray, array _ => true
  | array _, emptyArray => true
  | emptyMap, map _ _ => true
  | map _ _, emptyMap => true
  | array member, array member' => equivalent member member'
  | map key value, map key' value' => equivalent key key' && equivalent value value'
  | func params result, func params' result' =>
    equivalentAll params params' && equivalent result result'
  | named name, named name' => name == name'
  | _, _ => false

/-- Whether two lists of types are equally long and equivalent place by place. -/
def equivalentAll : List Ty → List Ty → Bool
  | [], [] => true
  | t :: ts, t' :: ts' => equivalent t t' && equivalentAll ts ts'
  | _, _ => false

end

/-- Whether a value of the first type may be stored where the second one is expected. -/
def assignable : Ty → Ty → Bool
  | _, any => true
  | array member, array member' => assignable member member'
  | map key value, map key' value' => assignable key key' && assignable value value'
  | t, t' => equivalent t t'

end Ty

end LemonScript
