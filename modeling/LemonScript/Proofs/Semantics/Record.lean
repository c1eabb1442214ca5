import LemonScript.Proofs.Semantics.Congruence
/-!
# Runs on record

A run that does not end normally has printed and called something all the same. Here a run is kept on
record: whatever its end is, it tells the state in which it ended and the calls that it made, and it
tells arithmetic that has no result from the other reasons to stop. Apart from that runs are what they
were, which is the main statement.
-/

namespace LemonScript

open Semantics

structure Record where
  state : State
  /-- What was called, with its arguments. -/
  calls : List (Value × List Value)

inductive Halt
  /-- A division or a remainder by zero, or a negative exponent. -/
  | arithmetic
  | stop (reason : Stop)

def Halt.reason : Halt → Stop
  | .arithmetic => .fault
  | .stop reason => reason

abbrev Recorded := ExceptT Halt (StateM Record)

namespace Recorded

variable {α β : Type}

/-- A step that takes no record of its end. -/
def keep (m : Run α) : Recorded α := fun r =>
  match m r.state with
  | .ok (a, s) => (.ok a, { r with state := s })
  | .error reason => (.error (.stop reason), r)

def halt (reason : Halt) : Recorded α := fun r => (.error reason, r)

def note (f : Value) (xs : List Value) : Recorded Unit := fun r =>
  (.ok (), { r with calls := r.calls ++ [(f, xs)] })

variable {f : α → Recorded β} {r : Record} {m : Run α} {m' : Recorded α}
variable {r' : Record} {x : α} {ns : List Node}

theorem bind_of_ok {m : Recorded α} (h : m r = (.ok x, r')) : (m >>= f) r = f x r' := by
  change ExceptT.bindCont f (m r).1 (m r).2 = _
  rw [h]
  rfl

theorem bind_of_error {m : Recorded α} {reason : Halt} (h : m r = (.error reason, r')) :
    (m >>= f) r = (.error reason, r') := by
  change ExceptT.bindCont f (m r).1 (m r).2 = _
  rw [h]
  rfl

theorem keep_of_ok {s : State} (h : m r.state = .ok (x, s)) :
    keep m r = (.ok x, { r with state := s }) := by
  unfold keep
  rw [h]

theorem keep_of_error {reason : Stop} (h : m r.state = .error reason) :
    keep m r = (.error (.stop reason), r) := by
  unfold keep
  rw [h]

def failure (op : BinaryOp) (x y : Value) : Halt :=
  match x, y, op with
  | .int _, .int _, .div | .int _, .int _, .mod | .int _, .int _, .pow => .arithmetic
  | _, _, _ => .stop .fault

def applied (op : BinaryOp) (x y : Value) : Recorded Value :=
  match operate op x y with
  | some v => pure v
  | none => halt (failure op x y)

abbrev Calls := Value → List Value → Recorded Value

/-! ### Expressions -/

mutual

def eval (call : Calls) (env : Env) : Node → Recorded Value
  | .binary left op right _ =>
    match op with
    | .and => do
      if ← keep (truth (← eval call env left)) then return .bool (← keep (truth (← eval call env right)))
      else return .bool false
    | .or => do
      if ← keep (truth (← eval call env left)) then return .bool true
      else return .bool (← keep (truth (← eval call env right)))
    | _ => do
      let x ← eval call env left
      let y ← eval call env right
      applied op x y
  | .unary op operand _ _ => do
    keep (orFault (operateUnary op (← eval call env operand)))
  | .call callee args _ => do
    let f ← eval call env callee
    let xs ← evalOptional call env args
    note f xs
    call f xs
  | .arrayLit elements _ => do
    let xs ← evalOptional call env elements
    return .ref (← keep (allocate (.array xs)))
  | .mapLit entries _ => do
    let es ← evalEntries call env entries
    return .ref (← keep (allocate (.map (mapOf es))))
  | .member array (some i) _ => do
    keep (elementOf (← eval call env array) i)
  | .property map key _ => do
    let x ← eval call env map
    let k ← eval call env key
    keep (entryOf x k)
  -- nothing is called by a literal or a name
  | n => keep (Semantics.eval (fun _ _ => stop .stuck) env n)

def evalAll (call : Calls) (env : Env) : List Node → Recorded (List Value)
  | [] => return []
  | n :: ns => do
    let x ← eval call env n
    let xs ← evalAll call env ns
    return x :: xs

def evalOptional (call : Calls) (env : Env) : Option (List Node) → Recorded (List Value)
  | none => return []
  | some ns => evalAll call env ns

def evalEntries (call : Calls) (env : Env) : List (Entry Node) → Recorded (List (Value × Value))
  | [] => return []
  | ⟨key, value⟩ :: rest => do
    let k ← eval call env key
    let x ← eval call env value
    let es ← evalEntries call env rest
    return (k, x) :: es

end

def holds (call : Calls) (env : Env) (condition : Node) : Recorded Bool := do
  keep (truth (← eval call env condition))

/-! ### Statements -/

def change (call : Calls) (env : Env) : Node → Recorded Unit
  | .binary (.var v) .addAssign right _ => do
    let a ← keep (addressOf env v.id)
    let x ← keep (readVar a)
    let y ← eval call env right
    keep (do writeVar a (← orFault (operate .add x y)))
  | .binary (.var v) .subAssign right _ => do
    let a ← keep (addressOf env v.id)
    let x ← keep (readVar a)
    let y ← eval call env right
    keep (do writeVar a (← orFault (operate .sub x y)))
  -- a step calls nothing
  | n => keep (Semantics.change (fun _ _ => stop .stuck) env n)

def assignTo (call : Calls) (env : Env) : Node → Node → Recorded Unit
  | .var v, source => do
    let y ← eval call env source
    keep (do writeVar (← addressOf env v.id) y)
  | .member array (some i) _, source => do
    let x ← eval call env array
    let y ← eval call env source
    keep (setElement x i y)
  | .property map key _, source => do
    let x ← eval call env map
    let k ← eval call env key
    let y ← eval call env source
    keep (setEntry x k y)
  | _, _ => halt (.stop .stuck)

def initial (call : Calls) (env : Env) : Node → Recorded Value
  | .missing => return .unset
  | init => eval call env init

def repeated (again : Recorded Flow) : Flow → Recorded Flow
  | .onward | .next => again
  | .chop => return .onward
  | .back v => return .back v

def loop (condition : Recorded Bool) (body : Recorded Flow) (step : Recorded Unit) : Nat → Recorded Flow
  | 0 => halt (.stop .unfinished)
  | fuel + 1 => do
    if ← condition then
      repeated (do step; loop condition body step fuel) (← body)
    else return .onward

def thenRun (rest : Env → Recorded (Flow × Env)) : Flow × Env → Recorded (Flow × Env)
  | (.onward, env) => rest env
  | r => return r

mutual

def exec (call : Calls) (fuel : Nat) (env : Env) : Node → Recorded (Flow × Env)
  | .varDecl _ _ init _ _ (some v) => do
    let x ← initial call env init
    let a ← keep (allocate (.var x))
    return (.onward, (v.id, a) :: env)
  | .funDecl _ _ _ params body (some f) => do
    let env ← keep (allocateFunction ⟨f.id, parameterIds params, body⟩ env)
    return (.onward, env)
  | .assign target source => do
    assignTo call env target source
    return (.onward, env)
  | .binary left .addAssign right type => do
    change call env (.binary left .addAssign right type)
    return (.onward, env)
  | .binary left .subAssign right type => do
    change call env (.binary left .subAssign right type)
    return (.onward, env)
  | .unary .increment operand leading type => do
    change call env (.unary .increment operand leading type)
    return (.onward, env)
  | .unary .decrement operand leading type => do
    change call env (.unary .decrement operand leading type)
    return (.onward, env)
  | .ifElse cases otherwise => do
    let r ← execArms call fuel env (execBlock call fuel env otherwise) cases
    return (r.1, env)
  | .switch scrutinee cases default => do
    let x ← eval call env scrutinee
    let r ← execCases call fuel env x (execBlock call fuel env default) cases
    return (r.1, env)
  | .whileLoop condition body => do
    let flow ← loop (holds call env condition) (Prod.fst <$> execBlock call fuel env body) (pure ()) fuel
    return (flow, env)
  | .forLoop _ init condition step body (some v) => do
    let x ← eval call env init
    let a ← keep (allocate (.var x))
    let inner := (v.id, a) :: env
    let flow ← loop (holds call inner condition) (Prod.fst <$> execBlock call fuel inner body)
      (change call inner step) fuel
    return (flow, env)
  | .giveBack e => do
    return (.back (← eval call env e), env)
  | .giveBackNothing => return (.back .unset, env)
  | .chop => return (.chop, env)
  | .next => return (.next, env)
  | n => do
    let _ ← eval call env n
    return (.onward, env)

def execAll (call : Calls) (fuel : Nat) (env : Env) : List Node → Recorded (Flow × Env)
  | [] => return (.onward, env)
  | n :: ns => do
    thenRun (fun env => execAll call fuel env ns) (← exec call fuel env n)

def execBlock (call : Calls) (fuel : Nat) (env : Env) : Option (List Node) → Recorded (Flow × Env)
  | none => return (.onward, env)
  | some ns => execAll call fuel env ns

def execArms (call : Calls) (fuel : Nat) (env : Env) (otherwise : Recorded (Flow × Env)) :
    List (Arm Node) → Recorded (Flow × Env)
  | [] => otherwise
  | ⟨guard, body⟩ :: rest => do
    if ← holds call env guard then execBlock call fuel env body
    else execArms call fuel env otherwise rest

def execCases (call : Calls) (fuel : Nat) (env : Env) (x : Value) (otherwise : Recorded (Flow × Env)) :
    List (Arm Node) → Recorded (Flow × Env)
  | [] => otherwise
  | ⟨guard, body⟩ :: rest => do
    if same x (← eval call env guard) then execBlock call fuel env body
    else execCases call fuel env x otherwise rest

end

/-! ### Functions -/

def callAt : Nat → Calls
  | fuel + 1, .ref a, args => do
    match ← keep (cellAt a) with
    | .closure code env => do
      let inner ← keep (bindAll code.params args env)
      let r ← execBlock (callAt fuel) fuel inner code.body
      keep (result r.1)
    | _ => halt (.stop .fault)
  | fuel, f, args => keep (Semantics.callAt fuel f args)

/-! ### The record changes nothing -/

/-- What is left of a run when its record is not kept. -/
def ending : Except Halt α × Record → Except Stop (α × State)
  | (.ok a, r) => .ok (a, r.state)
  | (.error h, _) => .error h.reason

/-- Nothing that was on record is taken from it. -/
def Adds (m : Recorded α) : Prop := ∀ r, r.calls <+: (m r).2.calls

theorem adds_pure (x : α) : Adds (pure x) := fun _ => List.prefix_refl _

theorem adds_keep (m : Run α) : Adds (keep m) := by
  intro r
  unfold keep
  split <;> exact List.prefix_refl _

theorem calls_bind {m : Recorded α} (hf : ∀ x, Adds (f x)) (r : Record) :
    (m r).2.calls <+: ((m >>= f) r).2.calls := by
  change _ <+: (ExceptT.bindCont f (m r).1 (m r).2 : Except Halt β × Record).2.calls
  obtain ⟨x, r'⟩ := m r
  cases x with
  | ok x => exact hf x r'
  | error h => exact List.prefix_refl _

theorem Adds.bind {m : Recorded α} (hm : Adds m) (hf : ∀ x, Adds (f x)) : Adds (m >>= f) :=
  fun r => (hm r).trans (calls_bind hf r)

/-- The first run is the second one on record. -/
structure Tells (m' : Recorded α) (m : Run α) : Prop where
  ends : ∀ r, m r.state = ending (m' r)
  adds : Adds m'

theorem tells_pure (x : α) : Tells (pure x) (pure x) := ⟨fun _ => rfl, adds_pure x⟩

theorem tells_halt (h : Halt) : Tells (halt h : Recorded α) (stop h.reason) :=
  ⟨fun _ => rfl, fun _ => List.prefix_refl _⟩

theorem tells_keep (m : Run α) : Tells (keep m) m := by
  refine ⟨fun r => ?_, adds_keep m⟩
  unfold keep
  cases h : m r.state with
  | ok | error => rfl

theorem Tells.bind {f' : α → Recorded β} {f : α → Run β} (hm : Tells m' m)
    (hf : ∀ x, Tells (f' x) (f x)) : Tells (m' >>= f') (m >>= f) := by
  refine ⟨fun r => ?_, hm.adds.bind fun x => (hf x).adds⟩
  change Except.bind (m r.state) (fun p => f p.1 p.2) = ending (ExceptT.bindCont f' (m' r).1 (m' r).2)
  rw [hm.ends r]
  obtain ⟨x, r'⟩ := m' r
  cases x with
  | ok x => exact (hf x).ends r'
  | error h => rfl

theorem Tells.note (h : Tells m' m) (f : Value) (xs : List Value) :
    Tells (note f xs >>= fun _ => m') m where
  ends r := h.ends { r with calls := r.calls ++ [(f, xs)] }
  adds r := (List.prefix_append r.calls [(f, xs)]).trans (h.adds { r with calls := r.calls ++ [(f, xs)] })

theorem Tells.map (h : Tells m' m) (f : α → β) : Tells (f <$> m') (f <$> m) := by
  rw [map_eq_pure_bind, map_eq_pure_bind]
  exact h.bind fun x => tells_pure (f x)

theorem Tells.ite {k' : Recorded α} {k : Run α} (hm : Tells m' m) (hk : Tells k' k) (b : Bool) :
    Tells (if b then m' else k') (if b then m else k) := by
  cases b <;> assumption

theorem tells_applied (op : BinaryOp) (x y : Value) : Tells (applied op x y) (orFault (operate op x y)) := by
  unfold applied
  cases operate op x y with
  | some v => exact tells_pure v
  | none =>
    have hreason : (failure op x y).reason = .fault := by
      unfold failure
      split <;> rfl
    have hhalt : Tells (halt (failure op x y) : Recorded Value) _ := tells_halt _
    rw [hreason] at hhalt
    exact hhalt

theorem tells_loop {condition' : Recorded Bool} {condition : Run Bool} {body' : Recorded Flow} {body : Run Flow}
    {step' : Recorded Unit} {step : Run Unit} (hcondition : Tells condition' condition)
    (hbody : Tells body' body) (hstep : Tells step' step) (fuel : Nat) :
    Tells (loop condition' body' step' fuel) (Semantics.loop condition body step fuel) := by
  induction fuel with
  | zero => exact tells_halt (.stop .unfinished)
  | succ fuel ih =>
    refine hcondition.bind fun b => Tells.ite (hbody.bind fun flow => ?_) (tells_pure _) b
    cases flow with
    | onward | next => exact hstep.bind fun _ => ih
    | chop | back => exact tells_pure _

theorem tells_thenRun {rest' : Env → Recorded (Flow × Env)} {rest : Env → Run (Flow × Env)}
    (h : ∀ env, Tells (rest' env) (rest env)) (r : Flow × Env) :
    Tells (thenRun rest' r) (Semantics.thenRun rest r) := by
  obtain ⟨flow, env⟩ := r
  cases flow with
  | onward => exact h env
  | _ => exact tells_pure _

section Expressions

variable {call' : Calls} {call : Semantics.Calls} {env : Env} {left right : Node} {type : Ty}

theorem eval_strict {op : BinaryOp} (hop : isLogic op = false) :
    eval call' env (.binary left op right type) = (do
      let x ← eval call' env left
      let y ← eval call' env right
      applied op x y) := by
  cases op <;> first | rfl | cases hop

theorem eval_logic {op : BinaryOp} (hop : isLogic op) : eval call' env (.binary left op right type) = (do
      let b ← holds call' env left
      if b = decides op then return .bool (← holds call' env right) else return .bool b) := by
  cases op with
  | and | or =>
    simp only [eval, holds, bind_assoc]
    refine bind_congr fun x => bind_congr fun b => ?_
    cases b <;> rfl
  | _ => cases hop

theorem evalOptional_eq (ns : Option (List Node)) : evalOptional call' env ns = evalAll call' env (ns.getD []) := by
  cases ns <;> rfl

theorem tells_holds {condition : Node} (h : Tells (eval call' env condition) (Semantics.eval call env condition)) :
    Tells (holds call' env condition) (Semantics.holds call env condition) :=
  h.bind fun _ => tells_keep _

theorem tells_evalAll (h : ∀ n ∈ ns, Tells (eval call' env n) (Semantics.eval call env n)) :
    Tells (evalAll call' env ns) (Semantics.evalAll call env ns) := by
  induction ns with
  | nil => exact tells_pure []
  | cons n ns ih =>
    rw [List.forall_mem_cons] at h
    exact h.1.bind fun x => (ih h.2).bind fun xs => tells_pure (x :: xs)

theorem tells_evalOptional {ns : Option (List Node)}
    (h : ∀ n ∈ ns.getD [], Tells (eval call' env n) (Semantics.eval call env n)) :
    Tells (evalOptional call' env ns) (Semantics.evalOptional call env ns) := by
  cases ns with
  | none => exact tells_pure []
  | some ns => exact tells_evalAll h

theorem tells_evalEntries {es : List (Entry Node)}
    (h : ∀ n ∈ es.flatMap Entry.children, Tells (eval call' env n) (Semantics.eval call env n)) :
    Tells (evalEntries call' env es) (Semantics.evalEntries call env es) := by
  induction es with
  | nil => exact tells_pure []
  | cons e es ih =>
    rw [List.flatMap_cons, List.forall_mem_append] at h
    exact (h.1 e.key (.head _)).bind fun k => (h.1 e.value (.tail _ (.head _))).bind fun x =>
      (ih h.2).bind fun es => tells_pure ((k, x) :: es)

variable (hcall : ∀ f xs, Tells (call' f xs) (call f xs))

include hcall

theorem tells_eval (n : Node) :
    Tells (eval call' env n) (Semantics.eval call env n) := by
  induction n with
  | h n ih =>
  cases n with
  | binary left op right =>
    have hleft := ih left (.head _)
    have hright := ih right (.tail _ (.head _))
    cases hop : isLogic op with
    | true =>
      rw [eval_logic hop, Semantics.eval_logic hop]
      refine (tells_holds hleft).bind fun b => ?_
      split
      · exact (tells_holds hright).bind fun b => tells_pure _
      · exact tells_pure _
    | false =>
      rw [eval_strict hop, Semantics.eval_strict hop]
      exact hleft.bind fun x => hright.bind fun y => tells_applied _ x y
  | unary _ operand =>
    rw [eval, Semantics.eval]
    exact (ih operand (.head _)).bind fun x => tells_keep _
  | call =>
    obtain ⟨hcallee, hargs⟩ := List.forall_mem_cons.mp ih
    rw [eval, Semantics.eval]
    exact hcallee.bind fun f => (tells_evalOptional hargs).bind fun xs => (hcall f xs).note f xs
  | arrayLit =>
    rw [eval, Semantics.eval]
    exact (tells_evalOptional ih).bind fun xs => (tells_keep _).bind fun a => tells_pure _
  | mapLit =>
    rw [eval, Semantics.eval]
    exact (tells_evalEntries ih).bind fun es => (tells_keep _).bind fun a => tells_pure _
  | member array index =>
    cases index with
    | none => exact tells_keep _
    | some i =>
      rw [eval, Semantics.eval]
      exact (ih array (.head _)).bind fun x => tells_keep _
  | property map key =>
    rw [eval, Semantics.eval]
    exact (ih map (.head _)).bind fun x => (ih key (.tail _ (.head _))).bind fun k => tells_keep _
  | _ => exact tells_keep _

theorem tells_change (n : Node) :
    Tells (change call' env n) (Semantics.change call env n) := by
  unfold change Semantics.change
  split
  · exact (tells_keep _).bind fun a => (tells_keep _).bind fun x => (tells_eval hcall _).bind fun y => tells_keep _
  · exact (tells_keep _).bind fun a => (tells_keep _).bind fun x => (tells_eval hcall _).bind fun y => tells_keep _
  · split
    · next h _ => exact (h _ _ _ rfl).elim
    · next h => exact (h _ _ _ rfl).elim
    · exact tells_keep _
    · exact tells_keep _

theorem tells_assignTo (target source : Node) :
    Tells (assignTo call' env target source) (Semantics.assignTo call env target source) := by
  have hsource : Tells (eval call' env source) (Semantics.eval call env source) := tells_eval hcall source
  cases target with
  | var v => exact hsource.bind fun y => tells_keep _
  | member _ index =>
    cases index with
    | none => exact tells_halt (.stop .stuck)
    | some i => exact (tells_eval hcall _).bind fun x => hsource.bind fun y => tells_keep _
  | property =>
    exact (tells_eval hcall _).bind fun x => (tells_eval hcall _).bind fun k => hsource.bind fun y => tells_keep _
  | _ => exact tells_halt (.stop .stuck)

theorem tells_initial (init : Node) :
    Tells (initial call' env init) (Semantics.initial call env init) := by
  cases init with
  | missing => exact tells_pure _
  | _ => exact tells_eval hcall _

end Expressions

def Telling (call' : Calls) (call : Semantics.Calls) (fuel : Nat) (n : Node) : Prop :=
  ∀ env, Tells (exec call' fuel env n) (Semantics.exec call fuel env n)

section Statements

variable {call' : Calls} {call : Semantics.Calls} {env : Env} {fuel : Nat}
variable {arms : List (Arm Node)}

theorem tells_execAll (h : ∀ n ∈ ns, Telling call' call fuel n) (env : Env) :
    Tells (execAll call' fuel env ns) (Semantics.execAll call fuel env ns) := by
  induction ns generalizing env with
  | nil => exact tells_pure _
  | cons n ns ih =>
    rw [List.forall_mem_cons] at h
    exact (h.1 env).bind fun r => tells_thenRun (ih h.2) r

theorem tells_execBlock {ns : Option (List Node)} (h : ∀ n ∈ ns.getD [], Telling call' call fuel n) (env : Env) :
    Tells (execBlock call' fuel env ns) (Semantics.execBlock call fuel env ns) := by
  cases ns with
  | none => exact tells_pure _
  | some ns => exact tells_execAll h env

variable (hcall : ∀ f xs, Tells (call' f xs) (call f xs))

include hcall

theorem tells_execArms
    (h : ∀ n ∈ arms.flatMap Arm.children, Telling call' call fuel n) {m' : Recorded (Flow × Env)}
    {m : Run (Flow × Env)} (hm : Tells m' m) :
    Tells (execArms call' fuel env m' arms) (Semantics.execArms call fuel env m arms) := by
  induction arms with
  | nil => exact hm
  | cons _ _ ih =>
    rw [List.flatMap_cons, List.forall_mem_append] at h
    exact (tells_holds (tells_eval hcall _)).bind fun b =>
      Tells.ite (tells_execBlock (List.forall_mem_cons.mp h.1).2 env) (ih h.2) b

theorem tells_execCases
    (h : ∀ n ∈ arms.flatMap Arm.children, Telling call' call fuel n) {m' : Recorded (Flow × Env)}
    {m : Run (Flow × Env)} (hm : Tells m' m) (x : Value) :
    Tells (execCases call' fuel env x m' arms) (Semantics.execCases call fuel env x m arms) := by
  induction arms with
  | nil => exact hm
  | cons _ _ ih =>
    rw [List.flatMap_cons, List.forall_mem_append] at h
    exact (tells_eval hcall _).bind fun y =>
      Tells.ite (tells_execBlock (List.forall_mem_cons.mp h.1).2 env) (ih h.2) _

theorem tells_exec (n : Node) : Telling call' call fuel n := by
  induction n with
  | h n ih =>
  intro env
  cases n with
  | varDecl _ _ init _ _ entity =>
    cases entity with
    | none => exact (tells_eval hcall _).bind fun _ => tells_pure _
    | some v =>
      rw [exec, Semantics.exec]
      exact (tells_initial hcall init).bind fun x => (tells_keep _).bind fun a => tells_pure _
  | funDecl _ _ _ _ _ entity =>
    cases entity with
    | none => exact (tells_eval hcall _).bind fun _ => tells_pure _
    | some f =>
      rw [exec, Semantics.exec]
      exact (tells_keep _).bind fun env => tells_pure _
  | assign target source =>
    rw [exec, Semantics.exec]
    exact (tells_assignTo hcall target source).bind fun _ => tells_pure _
  | binary _ op =>
    cases op with
    | addAssign | subAssign =>
      rw [exec, Semantics.exec]
      exact (tells_change hcall _).bind fun _ => tells_pure _
    | _ => exact (tells_eval hcall _).bind fun _ => tells_pure _
  | unary op =>
    cases op with
    | increment | decrement =>
      rw [exec, Semantics.exec]
      exact (tells_change hcall _).bind fun _ => tells_pure _
    | _ => exact (tells_eval hcall _).bind fun _ => tells_pure _
  | ifElse =>
    obtain ⟨hcases, hotherwise⟩ := List.forall_mem_append.mp ih
    rw [exec, Semantics.exec]
    exact (tells_execArms hcall hcases (tells_execBlock hotherwise env)).bind fun r => tells_pure _
  | switch =>
    obtain ⟨hcases, hdefault⟩ := List.forall_mem_append.mp (List.forall_mem_cons.mp ih).2
    rw [exec, Semantics.exec]
    exact (tells_eval hcall _).bind fun x =>
      (tells_execCases hcall hcases (tells_execBlock hdefault env) x).bind fun r => tells_pure _
  | whileLoop =>
    have hbody := tells_execBlock (List.forall_mem_cons.mp ih).2 env
    rw [exec, Semantics.exec]
    exact (tells_loop (tells_holds (tells_eval hcall _)) (hbody.map _) (tells_pure ()) fuel).bind fun _ =>
      tells_pure _
  | forLoop _ _ _ _ body entity =>
    cases entity with
    | none => exact (tells_eval hcall _).bind fun _ => tells_pure _
    | some v =>
      have hbody (inner : Env) : Tells (execBlock call' fuel inner body) (Semantics.execBlock call fuel inner body) :=
        tells_execBlock (fun n hn => ih n (.tail _ (.tail _ (.tail _ hn)))) inner
      rw [exec, Semantics.exec]
      exact (tells_eval hcall _).bind fun x => (tells_keep _).bind fun a =>
        (tells_loop (tells_holds (tells_eval hcall _)) ((hbody _).map _) (tells_change hcall _) fuel).bind fun _ =>
          tells_pure _
  | giveBack e =>
    rw [exec, Semantics.exec]
    exact (tells_eval hcall e).bind fun x => tells_pure _
  | giveBackNothing | chop | next =>
    rw [exec, Semantics.exec]
    exact tells_pure _
  | _ =>
    exact (tells_eval hcall _).bind fun _ => tells_pure _

end Statements

theorem tells_callAt (fuel : Nat) (f : Value) (args : List Value) :
    Tells (callAt fuel f args) (Semantics.callAt fuel f args) := by
  induction fuel generalizing f args with
  | zero => exact tells_keep _
  | succ fuel ih =>
    cases f with
    | ref a =>
      rw [callAt, Semantics.callAt]
      refine (tells_keep _).bind fun c => ?_
      cases c with
      | closure =>
        exact (tells_keep _).bind fun inner =>
          (tells_execBlock (fun n _ => tells_exec ih n) inner).bind fun r => tells_keep _
      | _ => exact tells_halt (.stop .fault)
    | _ => exact tells_keep _

theorem tells_statements (fuel : Nat) (env : Env) (ns : List Node) :
    Tells (execAll (callAt fuel) fuel env ns) (Semantics.execAll (Semantics.callAt fuel) fuel env ns) :=
  tells_execAll (fun n _ => tells_exec (tells_callAt fuel) n) env

end Recorded

end LemonScript
