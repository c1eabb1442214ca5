import LemonScript.Number.Binary64
import LemonScript.Syntax.Arithmetic
import LemonScript.Syntax.Fault
/-!
# Operators on literals

An operator whose operands are literals is replaced by the literal of its value. Nothing is replaced
that would fail when the program runs, nor a power with so many digits that the program would only
grow.
-/

namespace LemonScript

namespace Simplify

/-- The largest exponent for which a power of an integer is computed. -/
def maxExponent : Int := 4096

/-- Whether the power has too many digits to be written out. -/
def hugePower (l : Int) (op : BinaryOp) (r : Int) : Bool :=
  op == .pow && 1 < l.natAbs && maxExponent < r

def foldInts (l : Int) (op : BinaryOp) (r : Int) : Option Node :=
  if hugePower l op r then none
  else
    match op.arithmetic? l r with
    | some n => some (.intLit n)
    | none => (op.comparison? (compare l r)).map .ofBool

/-- How two doubles compare, if neither of them is a NaN. -/
def compareFloats? (l r : Float) : Option Ordering :=
  if l < r then some .lt
  else if l > r then some .gt
  else if l == r then some .eq
  else none

/-- The value of an arithmetic operator on doubles. -/
def floatArithmetic? (op : BinaryOp) (l r : Float) : Option Float :=
  match op with
  | .add => some (l + r)
  | .sub => some (l - r)
  | .mul => some (l * r)
  | .div => some (l / r)
  | .mod => some (Binary64.remainder l r)
  | .pow => some (Float.pow l r)
  | _ => none

def foldFloats (l : Float) (op : BinaryOp) (r : Float) : Option Node :=
  match floatArithmetic? op l r with
  | some x => if x.isInf || x.isNaN then none else some (.floatLit x)
  | none => (compareFloats? l r).bind fun o => (op.comparison? o).map .ofBool

/-- The value of a number literal as a double. -/
def toFloat : Node → Except Fault Float
  | .intLit n => return Binary64.ofInt n
  | .floatLit x => return x
  | n => throw (.notANumber n.kindName?)

/-- Folds an operator on two number literals; if one of them is a double, the other one is read as a
double too. -/
def foldNumbers (left : Node) (op : BinaryOp) (right : Node) : Except Fault (Option Node) :=
  match left, right with
  | .intLit l, .intLit r => return foldInts l op r
  | _, _ => do
    let l ← toFloat left
    let r ← toFloat right
    return foldFloats l op r

/-- Folds the joining of strings, and the comparison of strings and of truth values. -/
def foldOther (left : Node) (op : BinaryOp) (right : Node) : Option Node :=
  match left, op, right with
  | .stringLit l, .add, .stringLit r => some (.stringLit (l ++ r))
  | .stringLit l, .equal, .stringLit r => some (.ofBool (l == r))
  | .stringLit l, .notEqual, .stringLit r => some (.ofBool (l != r))
  | .boolLit _ l _, .equal, .boolLit _ r _ => some (.ofBool (l == r))
  | .boolLit _ l _, .notEqual, .boolLit _ r _ => some (.ofBool (l != r))
  | _, _, _ => none

def isNumber : Node → Bool
  | .intLit _ | .floatLit _ => true
  | _ => false

def isZero : Node → Bool
  | .intLit n => n == 0
  | .floatLit x => x == 0.0
  | _ => false

def isOne : Node → Bool
  | .intLit n => n == 1
  | .floatLit x => x == 1.0
  | _ => false

def isBool (value : Bool) : Node → Bool
  | .boolLit _ v _ => v == value
  | _ => false

def oneLike : Node → Node
  | .floatLit _ => .floatLit 1.0
  | _ => .intLit 1

end Simplify

end LemonScript
