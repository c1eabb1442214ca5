import LemonScript.Simplify.Fold
/-!
# Simpler expressions

Literals are folded, and operands that do not change a value are dropped.
-/

namespace LemonScript

namespace Simplify

/-- Drops a truth value that decides nothing, and an operand that is never evaluated. -/
def combineLogic (unit : Bool) (left : Node) (op : BinaryOp) (right : Node) (type : Ty) : Node :=
  if isBool unit left then right
  else if isBool unit right then left
  else if isBool (!unit) left then left
  else .binary left op right type

def numberOnLeft (left : Node) (op : BinaryOp) (right : Node) (type : Ty) : Node :=
  match op with
  | .add => if isZero left then right else .binary left op right type
  | .sub => if isZero left then .unary .neg right true type else .binary left op right type
  | .mul =>
    if isOne left then right else if isZero left then left else .binary left op right type
  | .div => if isZero left then left else .binary left op right type
  | .pow => if isOne left then left else .binary left op right type
  | _ => .binary left op right type

def numberOnRight (left : Node) (op : BinaryOp) (right : Node) (type : Ty) : Node :=
  match op with
  | .add | .sub => if isZero right then left else .binary left op right type
  | .mul =>
    if isOne right then left else if isZero right then right else .binary left op right type
  | .div => if isOne right then left else .binary left op right type
  | .pow => if isZero right then oneLike right else .binary left op right type
  | _ => .binary left op right type

/-- An operator with operands that are not both numbers. -/
def combineOther (left : Node) (op : BinaryOp) (right : Node) (type : Ty) : Node :=
  match foldOther left op right with
  | some folded => folded
  | none =>
    if isNumber left then numberOnLeft left op right type
    else if isNumber right then numberOnRight left op right type
    else .binary left op right type

/-- A binary expression of simplified operands. -/
def operation (left : Node) (op : BinaryOp) (right : Node) (type : Ty) : Except Fault Node :=
  match op with
  | .and => return combineLogic true left op right type
  | .or => return combineLogic false left op right type
  | _ =>
    if isNumber left && isNumber right then do
      return (← foldNumbers left op right).getD (.binary left op right type)
    else return combineOther left op right type

def combineUnary (op : UnaryOp) (operand : Node) (leading : Bool) (type : Ty) : Node :=
  match op, operand with
  | .neg, .intLit n => .intLit (-n)
  | .neg, .floatLit x => .floatLit (-x)
  | .not, .boolLit _ value _ => .ofBool !value
  | _, _ => .unary op operand leading type

mutual

/-- A simpler expression with the same value. -/
def expression : Node → Except Fault Node
  | .binary left op right type => do
    let left' ← expression left
    let right' ← expression right
    match op with
    | .addAssign | .subAssign => return .binary left op right' type
    | _ => operation left' op right' type
  | .unary op operand leading type => do
    return combineUnary op (← expression operand) leading type
  | .call callee args type => do
    let callee ← expression callee
    let args ← optionalExpressions args
    return .call callee args type
  | .arrayLit elements type => do
    return .arrayLit (← optionalExpressions elements) type
  | .mapLit entries type => do
    return .mapLit (← mapEntries entries) type
  | .member array index type => do
    return .member (← expression array) index type
  | .property map key type => do
    let map ← expression map
    let key ← expression key
    return .property map key type
  | .intLit value => return .intLit value
  | .floatLit value => return .floatLit value
  | .stringLit value => return .stringLit value
  | .boolLit name value type => return .boolLit name value type
  | .var v => return .var v
  | .fn f => return .fn f
  | .ident name => return .ident name
  | n => throw (.ofNode n)

def expressions : List Node → Except Fault (List Node)
  | [] => return []
  | n :: ns => do
    let n ← expression n
    let ns ← expressions ns
    return n :: ns

/-- Simplifies a list of expressions; an absent one stays absent. -/
def optionalExpressions : Option (List Node) → Except Fault (Option (List Node))
  | none => return none
  | some ns => do return some (← expressions ns)

def mapEntries : List (Entry Node) → Except Fault (List (Entry Node))
  | [] => return []
  | ⟨key, value⟩ :: rest => do
    let key ← expression key
    let value ← expression value
    let rest ← mapEntries rest
    return ⟨key, value⟩ :: rest

end

end Simplify

end LemonScript
