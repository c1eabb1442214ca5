import Mathlib
import LemonScript.Simplify.Expression
/-!
# What an operator and its operands become

An operator with simplified operands becomes a literal, one of the operands, the negated right
operand, or it stays. Whatever is known about the operands and about literals is then known about
the result.
-/

namespace LemonScript

def Semantics.isLogic : BinaryOp → Bool
  | .and | .or => true
  | _ => false

/-- The truth value on which an operator looks at its right operand. -/
def Semantics.decides : BinaryOp → Bool
  | .or => false
  | _ => true

namespace Simplify

open Semantics (isLogic decides)

/-- A literal of a number is a double only if one of the operands is. -/
def isFloat : Node → Bool
  | .floatLit _ => true
  | _ => false

/-- What two number literals are folded to; `none` also where one of them is none. -/
def foldedNumbers (left : Node) (op : BinaryOp) (right : Node) : Option Node :=
  match left, right with
  | .intLit l, .intLit r => foldInts l op r
  | .intLit l, .floatLit r => foldFloats (Binary64.ofInt l) op r
  | .floatLit l, .intLit r => foldFloats l op (Binary64.ofInt r)
  | .floatLit l, .floatLit r => foldFloats l op r
  | _, _ => none

/-- What an operator and its operands become. -/
def combine (left : Node) (op : BinaryOp) (right : Node) (type : Ty) : Node :=
  match op with
  | .and => combineLogic true left op right type
  | .or => combineLogic false left op right type
  | _ =>
    if isNumber left && isNumber right then (foldedNumbers left op right).getD (.binary left op right type)
    else combineOther left op right type

/-- The laws by which an operator with simplified operands becomes something else. -/
inductive Law : Node → BinaryOp → Node → Ty → Node → Prop
  | unitLeft (hop : isLogic op = true) (h : isBool (decides op) left = true) : Law left op right type right
  | unitRight (hop : isLogic op = true) (h : isBool (decides op) right = true) : Law left op right type left
  | decided (hop : isLogic op = true) (h : isBool (!decides op) left = true) : Law left op right type left
  | numbers (hop : isLogic op = false) (h : foldedNumbers left op right = some n) : Law left op right type n
  | texts (hop : isLogic op = false) (h : foldOther left op right = some n) : Law left op right type n
  | zeroAdd (h : isZero left = true) : Law left .add right type right
  | zeroSub (h : isZero left = true) (hright : isNumber right = false) :
    Law left .sub right type (.unary .neg right true type)
  | oneMul (h : isOne left = true) : Law left .mul right type right
  | zeroMul (h : isZero left = true) : Law left .mul right type left
  | zeroDiv (h : isZero left = true) (hright : isNumber right = false) : Law left .div right type left
  | onePow (h : isOne left = true) (hright : isNumber right = false) : Law left .pow right type left
  | addZero (h : isZero right = true) : Law left .add right type left
  | subZero (h : isZero right = true) : Law left .sub right type left
  | mulOne (h : isOne right = true) : Law left .mul right type left
  | mulZero (h : isZero right = true) : Law left .mul right type right
  | divOne (h : isOne right = true) : Law left .div right type left
  | powZero (h : isZero right = true) : Law left .pow right type (oneLike right)
  | kept : Law left op right type (.binary left op right type)

variable {left right : Node} {op : BinaryOp} {type : Ty}
variable {n : Node}

theorem foldNumbers_eq (hleft : isNumber left) (hright : isNumber right) :
    foldNumbers left op right = .ok (foldedNumbers left op right) := by
  cases left with
  | intLit | floatLit =>
    cases right with
    | intLit | floatLit => rfl
    | _ => cases hright
  | _ => cases hleft

/-- Only numbers are folded as numbers, so no operator meets a fault. -/
theorem operation_eq (left : Node) (op : BinaryOp) (right : Node) (type : Ty) :
    operation left op right type = .ok (combine left op right type) := by
  cases op with
  | and | or => rfl
  | _ =>
    simp only [operation, combine]
    split
    · next h =>
      rw [Bool.and_eq_true] at h
      rw [foldNumbers_eq h.1 h.2]
      rfl
    · rfl

/-! ### Laws -/

theorem law_ite {c : Bool} (h : c = true → Law left op right type n) :
    Law left op right type (if c then n else .binary left op right type) := by
  split
  · next hc => exact h hc
  · exact .kept

theorem law_combineLogic (hop : isLogic op) :
    Law left op right type (combineLogic (decides op) left op right type) := by
  unfold combineLogic
  split
  · next h => exact .unitLeft hop h
  split
  · next h => exact .unitRight hop h
  · exact law_ite (.decided hop)

theorem law_numberOnLeft (hright : isNumber right = false) :
    Law left op right type (numberOnLeft left op right type) := by
  unfold numberOnLeft
  split
  · exact law_ite .zeroAdd
  · exact law_ite (.zeroSub · hright)
  · split
    · next h => exact .oneMul h
    · exact law_ite .zeroMul
  · exact law_ite (.zeroDiv · hright)
  · exact law_ite (.onePow · hright)
  · exact .kept

theorem law_numberOnRight : Law left op right type (numberOnRight left op right type) := by
  unfold numberOnRight
  split
  · exact law_ite .addZero
  · exact law_ite .subZero
  · split
    · next h => exact .mulOne h
    · exact law_ite .mulZero
  · exact law_ite .divOne
  · exact law_ite .powZero
  · exact .kept

/-- Whatever an operator and its operands become, one of the laws says so. -/
theorem law_combine (left : Node) (op : BinaryOp) (right : Node) (type : Ty) :
    Law left op right type (combine left op right type) := by
  unfold combine
  split
  · exact law_combineLogic rfl
  · exact law_combineLogic rfl
  next hand hor =>
  have hop : isLogic op = false := by
    cases op <;> first | rfl | exact absurd rfl hand | exact absurd rfl hor
  split
  · cases h : foldedNumbers left op right with
    | none => exact .kept
    | some n => exact .numbers hop h
  · next hnumbers =>
    unfold combineOther
    split
    · next h => exact .texts hop h
    split
    · next hleft => exact law_numberOnLeft (by simpa [hleft] using hnumbers)
    split
    · exact law_numberOnRight
    · exact .kept

theorem isNumber_of_isZero (h : isZero n) : isNumber n := by
  cases n <;> first | rfl | cases h

theorem isNumber_of_isOne (h : isOne n) : isNumber n := by
  cases n <;> first | rfl | cases h

/-! ### Results -/

/-- What `combine` makes of an operator and its operands. -/
inductive Combined (left : Node) (op : BinaryOp) (right : Node) (type : Ty) : Node → Prop
  | int (value : Int) : Combined left op right type (.intLit value)
  | float (value : Float) (h : isFloat left = true ∨ isFloat right = true) :
    Combined left op right type (.floatLit value)
  | string (value : String) : Combined left op right type (.stringLit value)
  | bool (value : Bool) : Combined left op right type (.ofBool value)
  | left : Combined left op right type left
  | right : Combined left op right type right
  | negated (hop : op = .sub) (hleft : isZero left = true) (hright : isNumber right = false) :
    Combined left op right type (.unary .neg right true type)
  | kept : Combined left op right type (.binary left op right type)

theorem combined_foldInts {l r : Int} (h : foldInts l op r = some n) :
    Combined left op right type n := by
  unfold foldInts at h
  split at h
  · exact absurd h (by simp)
  split at h
  · exact Option.some.inj h ▸ .int _
  · obtain ⟨b, -, rfl⟩ := Option.map_eq_some_iff.mp h
    exact .bool b

theorem combined_foldFloats {l r : Float} (hfloat : isFloat left ∨ isFloat right)
    (h : foldFloats l op r = some n) : Combined left op right type n := by
  unfold foldFloats at h
  split at h
  · split at h
    · exact absurd h (by simp)
    · exact Option.some.inj h ▸ .float _ hfloat
  · obtain ⟨o, -, h⟩ := Option.bind_eq_some_iff.mp h
    obtain ⟨b, -, rfl⟩ := Option.map_eq_some_iff.mp h
    exact .bool b

theorem combined_foldedNumbers (h : foldedNumbers left op right = some n) :
    Combined left op right type n := by
  unfold foldedNumbers at h
  split at h
  · exact combined_foldInts h
  · exact combined_foldFloats (.inr rfl) h
  · exact combined_foldFloats (.inl rfl) h
  · exact combined_foldFloats (.inl rfl) h
  · cases h

theorem combined_foldOther (h : foldOther left op right = some n) :
    Combined left op right type n := by
  unfold foldOther at h
  split at h
  · exact Option.some.inj h ▸ .string _
  iterate 4 exact Option.some.inj h ▸ .bool _
  · exact absurd h (by simp)

theorem combined_combine (left : Node) (op : BinaryOp) (right : Node) (type : Ty) :
    Combined left op right type (combine left op right type) := by
  have hlaw := law_combine left op right type
  generalize combine left op right type = n at hlaw ⊢
  cases hlaw with
  | numbers _ h => exact combined_foldedNumbers h
  | texts _ h => exact combined_foldOther h
  | unitLeft | zeroAdd | oneMul | mulZero => exact .right
  | zeroSub h hright => exact .negated rfl h hright
  | powZero =>
    unfold oneLike
    split
    · exact .float _ (.inr rfl)
    · exact .int 1
  | kept => exact .kept
  | _ => exact .left

/-- What `combineUnary` makes of an operator and its operand. -/
inductive CombinedUnary (op : UnaryOp) (operand : Node) (leading : Bool) (type : Ty) : Node → Prop
  | int (value : Int) : CombinedUnary op operand leading type (.intLit value)
  | float (value : Float) (h : isFloat operand = true) :
    CombinedUnary op operand leading type (.floatLit value)
  | bool (value : Bool) : CombinedUnary op operand leading type (.ofBool value)
  | kept : CombinedUnary op operand leading type (.unary op operand leading type)

theorem combinedUnary_combineUnary (op : UnaryOp) (operand : Node) (leading : Bool) (type : Ty) :
    CombinedUnary op operand leading type (combineUnary op operand leading type) := by
  unfold combineUnary
  split
  · exact .int _
  · exact .float _ rfl
  · exact .bool _
  · exact .kept

end Simplify

end LemonScript
