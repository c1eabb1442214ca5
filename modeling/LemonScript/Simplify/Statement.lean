import LemonScript.Simplify.Expression
import LemonScript.Simplify.Unroll
/-!
# Simpler statements

A statement becomes a list of statements: none if it does nothing, several if a loop is written out.
A result may also be absent, which differs from an empty list only where a whole body is replaced by
it.
-/

namespace LemonScript

/-- How far programs are simplified. -/
structure SimplifyOptions where
  /-- The most iterations for which a loop is written out. -/
  maxUnroll : Nat
deriving Repr, DecidableEq

namespace SimplifyOptions

/-- The limit that holds when none is asked for. -/
def defaultMaxUnroll : Nat := 64

/-- The options for a requested limit; one that is not positive stands for the default. -/
def ofRequest (limit : Int) : SimplifyOptions where
  maxUnroll := if limit ≤ 0 then defaultMaxUnroll else limit.toNat

instance : Inhabited SimplifyOptions := ⟨⟨defaultMaxUnroll⟩⟩

end SimplifyOptions

namespace Simplify

def sameEntity : Node → Node → Bool
  | .var v, .var v' => v.id == v'.id
  | .fn f, .fn f' => f.id == f'.id
  | _, _ => false

/-- An assignment of simplified sides; an entity need not be assigned to itself. -/
def assign (target source : Node) : Option (List Node) :=
  if sameEntity source target then none else some [.assign target source]

/-- Simplifies a statement that contains no other statement. A compound assignment becomes the plain
one that it stands for. -/
def plainStatement : Node → Except Fault (Option (List Node))
  | .varDecl type name init isConst isStatic entity => do
    let init ← if init.isMissing then pure .missing else expression init
    return some [.varDecl type name init isConst isStatic entity]
  | .assign target source => do
    let source ← expression source
    let target ← expression target
    return assign target source
  | .giveBack value => do
    return some [.giveBack (← expression value)]
  | .giveBackNothing => return some [.giveBackNothing]
  | .chop => return some [.chop]
  | .next => return some [.next]
  | .classDecl name parent params plant body => return some [.classDecl name parent params plant body]
  | .binary left .addAssign right type => do
    let target ← expression left
    let right ← expression right
    return assign target (← operation target .add right type)
  | .binary left .subAssign right type => do
    let target ← expression left
    let right ← expression right
    return assign target (← operation target .sub right type)
  | n => do
    return some [← expression n]

/-- The body of a loop with the loop variable put in. -/
def unrolledBody (id value : Int) : List Node → Except Fault (List Node)
  | [] => return []
  | n :: ns => do
    let n ← plainStatement (← substitute id value n)
    let ns ← unrolledBody id value ns
    return n.getD [] ++ ns

/-- The body of a loop, once for each value of the loop variable. -/
def unrolled (id : Int) (body : List Node) : List Int → Except Fault (List Node)
  | [] => return []
  | value :: values => do
    let first ← unrolledBody id value body
    let rest ← unrolled id body values
    return first ++ rest

/-- A loop of simplified parts, written out if its iterations are known and few. -/
def finishFor (o : SimplifyOptions) (name : String) (init condition step : Node)
    (body : Option (List Node)) (entity : Option Variable) : Except Fault (Option (List Node)) :=
  let loop := Node.forLoop name init condition step body entity
  match entity, iterations? entity init condition step with
  | some v, some i =>
    if i.count ≤ o.maxUnroll && (body.getD []).all (copyable entity) then do
      return some (← unrolled v.id (body.getD []) i.values)
    else return some [loop]
  | _, _ => return some [loop]

/-- The conditions of an `if` that are left, and the block that always runs when none of them
holds, if there is one. -/
structure IfChain where
  arms : List (Arm Node)
  always : Option (Option (List Node))

mutual

def statement (o : SimplifyOptions) : Node → Except Fault (Option (List Node))
  | .funDecl name isStatic result params body entity => do
    let body ← block o body
    return some [.funDecl name isStatic result params body entity]
  | .ifElse cases otherwise => do
    let chain ← ifChain o cases
    let otherwise ←
      match chain.always with
      | some body => pure body
      | none => block o otherwise
    return if chain.arms.isEmpty then otherwise else some [.ifElse chain.arms otherwise]
  | .whileLoop condition body => do
    let condition ← expression condition
    if isBool false condition then return none
    else
      let body ← block o body
      return some [.whileLoop condition body]
  | .forLoop name init condition step body entity => do
    let init ← expression init
    let condition ← expression condition
    let step ← expression step
    let body ← block o body
    finishFor o name init condition step body entity
  | .switch scrutinee cases default => do
    let scrutinee ← expression scrutinee
    let default ← block o default
    let cases ← switchCases o cases
    return some [.switch scrutinee cases default]
  | n => plainStatement n

def statements (o : SimplifyOptions) : List Node → Except Fault (List Node)
  | [] => return []
  | n :: ns => do
    let n ← statement o n
    let ns ← statements o ns
    return n.getD [] ++ ns

/-- Simplifies a list of statements; an absent one stays absent. -/
def block (o : SimplifyOptions) : Option (List Node) → Except Fault (Option (List Node))
  | none => return none
  | some ns => do return some (← statements o ns)

/-- Drops the conditions that never hold, and all that follows one that always does. -/
def ifChain (o : SimplifyOptions) : List (Arm Node) → Except Fault IfChain
  | [] => return ⟨[], none⟩
  | ⟨guard, body⟩ :: rest => do
    let guard ← expression guard
    let body ← block o body
    if isBool true guard then return ⟨[], some body⟩
    else
      let chain ← ifChain o rest
      if isBool false guard then return chain
      else return ⟨⟨guard, body⟩ :: chain.arms, chain.always⟩

def switchCases (o : SimplifyOptions) : List (Arm Node) → Except Fault (List (Arm Node))
  | [] => return []
  | ⟨guard, body⟩ :: rest => do
    let guard ← expression guard
    let body ← block o body
    let rest ← switchCases o rest
    return ⟨guard, body⟩ :: rest

end

end Simplify

def Program.simplify (o : SimplifyOptions) (p : Program) : Except Fault Program := do
  return ⟨p.imports, ← Simplify.block o p.statements⟩

def Node.simplify (o : SimplifyOptions) : Node → Except Fault (Option (List Node))
  | .program imports statements => do
    let p ← (Program.mk imports statements).simplify o
    return some [p.node]
  | n => Simplify.statement o n

end LemonScript
