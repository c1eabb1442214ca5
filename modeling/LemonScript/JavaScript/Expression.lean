import LemonScript.JavaScript.Emit
import LemonScript.Library
import LemonScript.Number.FloatText
import LemonScript.Text.JsonString
/-!
# Expressions in JavaScript

Every operation stands in parentheses of its own. Integers become big integers, which are written
with an `n` behind them.
-/

namespace LemonScript

namespace JavaScript

def operatorText : BinaryOp → String
  | .equal => "==="
  | .notEqual => "!=="
  | .pow => "**"
  | op => op.spelling

/-- A binary expression of written operands. An operand of `**` must not begin with a sign. -/
def binaryText (left : String) (op : BinaryOp) (right : String) : String :=
  match op with
  | .addAssign | .subAssign => s!"{left} {op.spelling} {right}"
  | .pow =>
    if left.startsWith "-" || left.startsWith "!" then s!"(({left}) ** {right})"
    else s!"({left} ** {right})"
  | _ => s!"({left} {operatorText op} {right})"

def unaryText (op : UnaryOp) (operand : String) (leading : Bool) : String :=
  if leading then s!"{op.spelling}({operand})" else operand ++ op.spelling

def commaList (texts : List String) : String := ", ".intercalate texts

mutual

def expression : Node → Emit String
  | .var v => if v.id == Library.pi.id then return "Math.PI" else targetName v.id v.name
  | .fn f => targetName f.id f.name
  | .intLit n => return s!"{n}n"
  | .floatLit x => return floatText x
  | .stringLit value => return jsonString .plain value
  | .boolLit _ value _ => return if value then "true" else "false"
  | .binary left op right _ => do
    let left ← expression left
    let right ← expression right
    return binaryText left op right
  | .unary op operand leading _ => do
    return unaryText op (← expression operand) leading
  | .call (.fn f) args _ =>
    if f.id == Library.pour.id then do
      modify fun s => { s with prints := true }
      let args ← optionalExpressions args
      return s!"console.log(__show({commaList args}))"
    else if f.id == Library.species.id then do
      let args ← optionalExpressions args
      return s!"typeof {commaList args}"
    else do
      let callee ← targetName f.id f.name
      let args ← optionalExpressions args
      return s!"{callee}({commaList args})"
  | .call callee args _ => do
    let callee ← expression callee
    let args ← optionalExpressions args
    return s!"{callee}({commaList args})"
  | .arrayLit elements _ => do
    let elements ← optionalExpressions elements
    return "[" ++ ",".intercalate elements ++ "]"
  | .mapLit entries _ => do
    let entries ← mapEntries entries
    return "\x7b" ++ commaList entries ++ "\x7d"
  | .member array index _ => do
    let array ← expression array
    match index with
    | some index => return s!"({array}[{index}])"
    | none => throw .absentIndex
  | .property map key _ => do
    let map ← expression map
    let key ← expression key
    return s!"({map}[{key}])"
  | n => throw (.ofNode n)

def expressions : List Node → Emit (List String)
  | [] => return []
  | n :: ns => do
    let n ← expression n
    let ns ← expressions ns
    return n :: ns

def optionalExpressions : Option (List Node) → Emit (List String)
  | none => return []
  | some ns => expressions ns

def mapEntries : List (Entry Node) → Emit (List String)
  | [] => return []
  | ⟨key, value⟩ :: rest => do
    let key ← expression key
    let value ← expression value
    let rest ← mapEntries rest
    return s!"[{key}]: {value}" :: rest

end

end JavaScript

end LemonScript
