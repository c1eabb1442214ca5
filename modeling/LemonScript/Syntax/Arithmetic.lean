import LemonScript.Syntax.Operator
/-!
# The meaning of operators on integers

Integers have any size. Division and remainder truncate toward zero; dividing by zero and raising to
a negative power have no value.
-/

namespace LemonScript

/-- `base ^ exponent`, also for exponents beyond all bounds when the power stays small. -/
def integerPower (base : Int) (exponent : Nat) : Int :=
  if exponent == 0 then 1
  else if base == 0 then 0
  else if base == 1 then 1
  else if base == -1 then (if exponent % 2 == 0 then 1 else -1)
  else Int.pow base exponent

namespace BinaryOp

/-- The value of an arithmetic operator on integers. -/
def arithmetic? (op : BinaryOp) (l r : Int) : Option Int :=
  match op with
  | add => some (l + r)
  | sub => some (l - r)
  | mul => some (l * r)
  | div => if r == 0 then none else some (l.tdiv r)
  | mod => if r == 0 then none else some (l.tmod r)
  | pow => if r < 0 then none else some (integerPower l r.toNat)
  | _ => none

/-- The value of a comparison whose operands compare as given. -/
def comparison? (op : BinaryOp) (o : Ordering) : Option Bool :=
  match op with
  | less => some o.isLT
  | lessEq => some o.isLE
  | equal => some o.isEq
  | notEqual => some o.isNe
  | greaterEq => some o.isGE
  | greater => some o.isGT
  | _ => none

end BinaryOp

end LemonScript
