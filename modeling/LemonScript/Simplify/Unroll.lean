import LemonScript.Simplify.Fold
/-!
# Counting loops

A loop whose bounds are literals and whose step is one runs a known number of times. This module
counts the iterations, tells which bodies can be written out once for each of them, and puts the
value of the loop variable into a body.
-/

namespace LemonScript

namespace Simplify

def isLoopVariable (entity : Option Variable) : Node → Bool
  | .var v => entity.any fun e => e.id == v.id
  | _ => false

/-- The values that a loop variable takes: `start`, `start + step`, and so on. -/
structure Iterations where
  start : Int
  step : Int
  count : Nat
deriving Repr, DecidableEq

namespace Iterations

def values (i : Iterations) : List Int :=
  (List.range i.count).map fun (k : Nat) => i.start + k * i.step

end Iterations

def stepOf? (entity : Option Variable) : Node → Option Int
  | .unary op operand _ _ =>
    if isLoopVariable entity operand then
      match op with
      | .increment => some 1
      | .decrement => some (-1)
      | _ => none
    else none
  | .binary left op (.intLit 1) _ =>
    if isLoopVariable entity left then
      match op with
      | .addAssign => some 1
      | .subAssign => some (-1)
      | _ => none
    else none
  | _ => none

/-- The distance from the first value to the last one, and one more, of a loop that runs while a
comparison with the bound holds. -/
def countOf? (step : Int) (op : BinaryOp) (start bound : Int) : Option Int :=
  match op with
  | .less => if step == 1 then some (bound - start) else none
  | .lessEq => if step == 1 then some (bound - start + 1) else none
  | .greater => if step == -1 then some (start - bound) else none
  | .greaterEq => if step == -1 then some (start - bound + 1) else none
  | _ => none

def iterations? (entity : Option Variable) (init condition step : Node) : Option Iterations :=
  match init, condition with
  | .intLit start, .binary left op (.intLit bound) _ =>
    if isLoopVariable entity left then do
      let step ← stepOf? entity step
      let count ← countOf? step op start bound
      return ⟨start, step, count.toNat⟩
    else none
  | _, _ => none

/-- Whether a statement of a loop body can be copied, with a literal for the loop variable. -/
def copyable (entity : Option Variable) : Node → Bool
  | .whileLoop .. | .forLoop .. | .ifElse .. | .switch .. | .funDecl .. | .classDecl .. | .chop
  | .next | .varDecl .. => false
  | .assign target _ => !isLoopVariable entity target
  | .unary .increment operand _ _ => !isLoopVariable entity operand
  | .unary .decrement operand _ _ => !isLoopVariable entity operand
  | .binary left .addAssign _ _ => !isLoopVariable entity left
  | .binary left .subAssign _ _ => !isLoopVariable entity left
  | _ => true

mutual

/-- Puts an integer in the place of every use of a variable. -/
def substitute (id value : Int) : Node → Except Fault Node
  | .missing => return .missing
  | .var v => return if v.id == id then .intLit value else .var v
  | .assign target source => do
    let target ← substitute id value target
    let source ← substitute id value source
    return .assign target source
  | .giveBack e => do
    return .giveBack (← substitute id value e)
  | .binary left op right type => do
    let left ← substitute id value left
    let right ← substitute id value right
    return .binary left op right type
  | .unary op operand leading type => do
    return .unary op (← substitute id value operand) leading type
  | .call callee args type => do
    let callee ← substitute id value callee
    let args ← substituteOptional id value args
    return .call callee args type
  | .arrayLit elements type => do
    return .arrayLit (← substituteOptional id value elements) type
  | .mapLit entries type => do
    return .mapLit (← substituteEntries id value entries) type
  | .member array index type => do
    return .member (← substitute id value array) index type
  | .property map key type => do
    let map ← substitute id value map
    let key ← substitute id value key
    return .property map key type
  | .intLit n => return .intLit n
  | .floatLit x => return .floatLit x
  | .stringLit text => return .stringLit text
  | .boolLit name truth type => return .boolLit name truth type
  | .fn f => return .fn f
  | .ident name => return .ident name
  | .giveBackNothing => return .giveBackNothing
  | n => throw (.notSubstitutable n.kindName?)

def substituteAll (id value : Int) : List Node → Except Fault (List Node)
  | [] => return []
  | n :: ns => do
    let n ← substitute id value n
    let ns ← substituteAll id value ns
    return n :: ns

def substituteOptional (id value : Int) : Option (List Node) → Except Fault (Option (List Node))
  | none => return none
  | some ns => do return some (← substituteAll id value ns)

def substituteEntries (id value : Int) : List (Entry Node) → Except Fault (List (Entry Node))
  | [] => return []
  | ⟨key, content⟩ :: rest => do
    let key ← substitute id value key
    let content ← substitute id value content
    let rest ← substituteEntries id value rest
    return ⟨key, content⟩ :: rest

end

end Simplify

end LemonScript
