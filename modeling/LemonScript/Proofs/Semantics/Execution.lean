import LemonScript.Proofs.Semantics.Machine
import LemonScript.Proofs.Typing.Scoped
/-!
# Running programs

Operands, arguments and statements run from left to right. A run is bounded: each call and each
iteration of a loop uses up some of the fuel that it is given, and a run without fuel is given up.
Numbers are exact, and an operator has a value only for two initialised values of one kind.
-/

namespace LemonScript

namespace Semantics

abbrev Calls := Value → List Value → Run Value

def functionAt (a : Address) : Run Value := do
  match ← cellAt a with
  | .closure .. => return .ref a
  | _ => stop .stuck

/-! ### Expressions -/

mutual

def eval (call : Calls) (env : Env) : Node → Run Value
  | .intLit n => return .int n
  | .floatLit x => return .float x
  | .stringLit text => return .string text
  | .boolLit _ b _ => return .bool b
  | .var v =>
    if v.id == Library.pi.id then return .float 3.141592653589793
    else do readVar (← addressOf env v.id)
  | .fn f =>
    if Library.isLibrary f.id then return .library f.id
    else do functionAt (← addressOf env f.id)
  | .binary left op right _ =>
    match op with
    | .and => do
      if ← truth (← eval call env left) then return .bool (← truth (← eval call env right))
      else return .bool false
    | .or => do
      if ← truth (← eval call env left) then return .bool true
      else return .bool (← truth (← eval call env right))
    | _ => do
      let x ← eval call env left
      let y ← eval call env right
      orFault (operate op x y)
  | .unary op operand _ _ => do
    orFault (operateUnary op (← eval call env operand))
  | .call callee args _ => do
    let f ← eval call env callee
    let xs ← evalOptional call env args
    call f xs
  | .arrayLit elements _ => do
    let xs ← evalOptional call env elements
    return .ref (← allocate (.array xs))
  | .mapLit entries _ => do
    let es ← evalEntries call env entries
    return .ref (← allocate (.map (mapOf es)))
  | .member array (some i) _ => do
    elementOf (← eval call env array) i
  | .property map key _ => do
    let x ← eval call env map
    let k ← eval call env key
    entryOf x k
  | _ => stop .stuck

def evalAll (call : Calls) (env : Env) : List Node → Run (List Value)
  | [] => return []
  | n :: ns => do
    let x ← eval call env n
    let xs ← evalAll call env ns
    return x :: xs

def evalOptional (call : Calls) (env : Env) : Option (List Node) → Run (List Value)
  | none => return []
  | some ns => evalAll call env ns

def evalEntries (call : Calls) (env : Env) : List (Entry Node) → Run (List (Value × Value))
  | [] => return []
  | ⟨key, value⟩ :: rest => do
    let k ← eval call env key
    let x ← eval call env value
    let es ← evalEntries call env rest
    return (k, x) :: es

end

def holds (call : Calls) (env : Env) (condition : Node) : Run Bool := do
  truth (← eval call env condition)

/-! ### Statements -/

inductive Flow
  | onward
  | chop
  | next
  | back (v : Value)

def change (call : Calls) (env : Env) : Node → Run Unit
  | .binary (.var v) .addAssign right _ => do
    let a ← addressOf env v.id
    let x ← readVar a
    let y ← eval call env right
    writeVar a (← orFault (operate .add x y))
  | .binary (.var v) .subAssign right _ => do
    let a ← addressOf env v.id
    let x ← readVar a
    let y ← eval call env right
    writeVar a (← orFault (operate .sub x y))
  | .unary op (.var v) _ _ => do
    let a ← addressOf env v.id
    let x ← readVar a
    writeVar a (← orFault (stepped op x))
  | _ => stop .stuck

/-- Runs an assignment. The parts of the target come before the source. -/
def assignTo (call : Calls) (env : Env) : Node → Node → Run Unit
  | .var v, source => do
    let y ← eval call env source
    writeVar (← addressOf env v.id) y
  | .member array (some i) _, source => do
    let x ← eval call env array
    let y ← eval call env source
    setElement x i y
  | .property map key _, source => do
    let x ← eval call env map
    let k ← eval call env key
    let y ← eval call env source
    setEntry x k y
  | _, _ => stop .stuck

def initial (call : Calls) (env : Env) : Node → Run Value
  | .missing => return .unset
  | init => eval call env init

def repeated (again : Run Flow) : Flow → Run Flow
  | .onward | .next => again
  | .chop => return .onward
  | .back v => return .back v

/-- Runs a body as long as a condition holds, and a step after each time. -/
def loop (condition : Run Bool) (body : Run Flow) (step : Run Unit) : Nat → Run Flow
  | 0 => stop .unfinished
  | fuel + 1 => do
    if ← condition then
      repeated (do step; loop condition body step fuel) (← body)
    else return .onward

def thenRun (rest : Env → Run (Flow × Env)) : Flow × Env → Run (Flow × Env)
  | (.onward, env) => rest env
  | r => return r

mutual

def exec (call : Calls) (fuel : Nat) (env : Env) : Node → Run (Flow × Env)
  | .varDecl _ _ init _ _ (some v) => do
    let x ← initial call env init
    let a ← allocate (.var x)
    return (.onward, (v.id, a) :: env)
  | .funDecl _ _ _ params body (some f) => do
    let env ← allocateFunction ⟨f.id, parameterIds params, body⟩ env
    return (.onward, env)
  | .assign target source => do
    assignTo call env target source
    return (.onward, env)
  | .binary left .addAssign right type => do
    change call env (.binary left .addAssign right type)
    return (.onward, env)
  | .binary left .subAssign right type => do
    change call env (.binary left .subAssign right type)
    return (.onward, env)
  | .unary .increment operand leading type => do
    change call env (.unary .increment operand leading type)
    return (.onward, env)
  | .unary .decrement operand leading type => do
    change call env (.unary .decrement operand leading type)
    return (.onward, env)
  | .ifElse cases otherwise => do
    let r ← execArms call fuel env (execBlock call fuel env otherwise) cases
    return (r.1, env)
  | .switch scrutinee cases default => do
    let x ← eval call env scrutinee
    let r ← execCases call fuel env x (execBlock call fuel env default) cases
    return (r.1, env)
  | .whileLoop condition body => do
    let flow ← loop (holds call env condition) (Prod.fst <$> execBlock call fuel env body)
      (pure ()) fuel
    return (flow, env)
  | .forLoop _ init condition step body (some v) => do
    let x ← eval call env init
    let a ← allocate (.var x)
    let inner := (v.id, a) :: env
    let flow ← loop (holds call inner condition) (Prod.fst <$> execBlock call fuel inner body)
      (change call inner step) fuel
    return (flow, env)
  | .giveBack e => do
    return (.back (← eval call env e), env)
  | .giveBackNothing => return (.back .unset, env)
  | .chop => return (.chop, env)
  | .next => return (.next, env)
  | n => do
    let _ ← eval call env n
    return (.onward, env)

def execAll (call : Calls) (fuel : Nat) (env : Env) : List Node → Run (Flow × Env)
  | [] => return (.onward, env)
  | n :: ns => do
    thenRun (fun env => execAll call fuel env ns) (← exec call fuel env n)

/-- Runs a block. What it declares is known inside of it only, so its users drop it. -/
def execBlock (call : Calls) (fuel : Nat) (env : Env) : Option (List Node) → Run (Flow × Env)
  | none => return (.onward, env)
  | some ns => execAll call fuel env ns

def execArms (call : Calls) (fuel : Nat) (env : Env) (otherwise : Run (Flow × Env)) :
    List (Arm Node) → Run (Flow × Env)
  | [] => otherwise
  | ⟨guard, body⟩ :: rest => do
    if ← holds call env guard then execBlock call fuel env body
    else execArms call fuel env otherwise rest

def execCases (call : Calls) (fuel : Nat) (env : Env) (x : Value) (otherwise : Run (Flow × Env)) :
    List (Arm Node) → Run (Flow × Env)
  | [] => otherwise
  | ⟨guard, body⟩ :: rest => do
    if same x (← eval call env guard) then execBlock call fuel env body
    else execCases call fuel env x otherwise rest

end

/-! ### Functions and programs -/

def result : Flow → Run Value
  | .onward => return .unset
  | .back v => return v
  | _ => stop .stuck

def callAt : Nat → Calls
  | 0, _, _ => stop .unfinished
  | fuel + 1, .library id, args => libraryCall fuel id args
  | fuel + 1, .ref a, args => do
    match ← cellAt a with
    | .closure code env => do
      let inner ← bindAll code.params args env
      result (← execBlock (callAt fuel) fuel inner code.body).1
    | _ => stop .fault
  | _ + 1, _, _ => stop .fault

end Semantics

open Semantics in
/-- Runs a program with bounded fuel, and tells where its top-level entities are in the end. -/
def Program.run (p : Program) (fuel : Nat) : Run Env := do
  match ← execBlock (callAt fuel) fuel [] p.statements with
  | (.onward, env) => return env
  | _ => stop .stuck

open Semantics in
def Program.Ends (p : Program) (start : State) (env : Env) (final : State) : Prop :=
  ∃ fuel, p.run fuel start = .ok (env, final)

end LemonScript
