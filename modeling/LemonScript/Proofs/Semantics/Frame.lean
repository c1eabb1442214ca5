import LemonScript.Proofs.Semantics.Value
/-!
# What a run leaves alone

A variable keeps its value while nothing that runs assigns to it. Expressions assign to nothing by
themselves, so an evaluation without calls leaves all variables alone, and what an evaluation with calls
may change is up to the functions in memory. A function that is declared in the meantime is a part of one
that was there before, and new variables never come to lie where an old one is.
-/

namespace LemonScript

open List (forall_mem_append forall_mem_cons)

def Node.target? : Node → Option Int
  | .assign (.var v) _ | .binary (.var v) .addAssign _ _ | .binary (.var v) .subAssign _ _
  | .unary .increment (.var v) _ _ | .unary .decrement (.var v) _ _ => some v.id
  | _ => none

def Node.HasCall (n : Node) : Prop := ∃ callee args type, PartOf (.call callee args type) n

variable {n : Node}

theorem Node.HasCall.of_child {c : Node} (hc : c ∈ n.children) (h : c.HasCall) : n.HasCall := by
  obtain ⟨callee, args, type, hpart⟩ := h
  exact ⟨callee, args, type, .child hc hpart⟩

namespace Semantics

/-- No variable that is assigned to in the tree is at the address. -/
def Spares (a : Address) (env : Env) : Node → Prop :=
  Node.AllParts fun m => ∀ id, m.target? = some id → env.lookup id ≠ some a

/-- Nothing comes to lie at the address that was not there before. -/
def Avoids (a : Address) (env env' : Env) : Prop :=
  ∀ id, env'.lookup id = some a → env.lookup id = some a

variable {env' : Env} {s : State} {c : Cell}
variable {id : Int} {ns : List Node}

theorem Avoids.refl (a : Address) (env : Env) : Avoids a env env := fun _ h => h

theorem Avoids.cons {a b : Address} {env : Env} (h : Avoids a env env') (hne : b ≠ a) (id : Int) :
    Avoids a env ((id, b) :: env') := by
  intro id' hid
  rw [List.lookup_cons] at hid
  split at hid
  · exact absurd (Option.some.inj hid) hne
  · exact h id' hid

theorem Spares.mono {a : Address} {env : Env} (h : Spares a env n) (hle : Avoids a env env') :
    Spares a env' n :=
  fun m hm id hid hlookup => h m hm id hid (hle id hlookup)

/-- A variable is at the address. If there are calls, no function in memory assigns to it. -/
structure Held (calls : Prop) (a : Address) (x : Value) (s : State) : Prop where
  cell : s.memory[a]? = some (.var x)
  closures : calls → ∀ code env, Cell.closure code env ∈ s.memory → ∀ n ∈ code.body.getD [], Spares a env n

/-- The step leaves the variable alone, and its result is of some kind. -/
def LeavesTo {α : Type} (calls : Prop) (a : Address) (x : Value) (m : Run α) (Q : α → Prop) : Prop :=
  ∀ ⦃s t : State⦄ ⦃y : α⦄, Held calls a x s → m s = .ok (y, t) → Held calls a x t ∧ Q y

def Leaves {α : Type} (calls : Prop) (a : Address) (x : Value) (m : Run α) : Prop :=
  LeavesTo calls a x m fun _ => True

variable {α β : Type} {calls : Prop} {a b : Address} {x : Value} {m : Run α} {f : α → Run β} {P : α → Prop}
  {Q : β → Prop} {env : Env}

/-! ### Steps -/

theorem LeavesTo.pure {y : α} (h : P y) : LeavesTo calls a x (Pure.pure y : Run α) P := by
  intro s t z hs hok
  obtain ⟨rfl, rfl⟩ := pure_eq_ok hok
  exact ⟨hs, h⟩

theorem LeavesTo.stop {reason : Stop} : LeavesTo calls a x (Semantics.stop reason : Run α) P := by
  intro s t y hs hok
  cases hok

theorem LeavesTo.bind (h : LeavesTo calls a x m P) (hf : ∀ y, P y → LeavesTo calls a x (f y) Q) :
    LeavesTo calls a x (m >>= f) Q := by
  intro s t z hs hok
  obtain ⟨y, u, hy, hz⟩ := bind_eq_ok hok
  obtain ⟨hu, hP⟩ := h hs hy
  exact hf y hP hu hz

theorem LeavesTo.next (h : LeavesTo calls a x m P) (hf : ∀ y, LeavesTo calls a x (f y) Q) : LeavesTo calls a x (m >>= f) Q :=
  h.bind fun y _ => hf y

theorem LeavesTo.of_looks (h : Looks m) : LeavesTo calls a x m fun _ => True := by
  intro s t y hs hok
  rcases h s with ⟨z, hz⟩ | ⟨reason, hstop, -⟩
  · rw [hok] at hz
    cases hz
    exact ⟨hs, trivial⟩
  · rw [hok] at hstop
    cases hstop

/-! ### Memory -/

theorem Held.lt (h : Held calls a x s) : a < s.memory.length := by
  by_contra hle
  have hcell := h.cell
  rw [List.getElem?_eq_none (not_lt.mp hle)] at hcell
  cases hcell

theorem Held.grow (h : Held calls a x s)
    (hc : ∀ code env, c = .closure code env → ∀ n ∈ code.body.getD [], Spares a env n) :
    Held calls a x { s with memory := s.memory ++ [c] } := by
  refine ⟨?_, ?_⟩
  · rw [List.getElem?_append_left h.lt]
    exact h.cell
  · intro hcalls code env hmem
    rcases List.mem_append.mp hmem with hmem | hmem
    · exact h.closures hcalls code env hmem
    · exact hc code env (List.mem_singleton.mp hmem).symm

theorem Held.set (h : Held calls a x s) (hne : b ≠ a) (hc : ∀ code env, c ≠ .closure code env) :
    Held calls a x { s with memory := s.memory.set b c } := by
  refine ⟨?_, ?_⟩
  · rw [List.getElem?_set_ne hne]
    exact h.cell
  · intro hcalls code env hmem
    rcases List.mem_or_eq_of_mem_set hmem with hmem | hmem
    · exact h.closures hcalls code env hmem
    · exact absurd hmem.symm (hc code env)

theorem Held.ne (h : Held calls a x s) (hcell : s.memory[b]? = some c) (hc : ∀ v, c ≠ .var v) :
    b ≠ a := by
  rintro rfl
  rw [h.cell] at hcell
  exact hc x (Option.some.inj hcell).symm

theorem leavesTo_allocate (hc : ∀ code env, c ≠ .closure code env) :
    LeavesTo calls a x (allocate c) (· ≠ a) := by
  intro s t b hs hok
  cases hok
  exact ⟨hs.grow fun code env h => absurd h (hc code env), hs.lt.ne'⟩

theorem leavesTo_allocateFunction {code : Code} (hcode : ∀ n ∈ code.body.getD [], Spares a env n) :
    LeavesTo calls a x (allocateFunction code env) (Avoids a env) := by
  intro s t env' hs hok
  cases hok
  have havoids : Avoids a env ((code.id, s.memory.length) :: env) := (Avoids.refl a env).cons hs.lt.ne' code.id
  refine ⟨hs.grow ?_, havoids⟩
  intro code' env' heq
  cases heq
  intro n hn
  exact (hcode n hn).mono havoids

theorem addressOf_eq_ok {t : State} (h : addressOf env id s = .ok (a, t)) :
    env.lookup id = some a ∧ t = s := by
  unfold addressOf at h
  split at h
  · cases h
  · cases hlookup : env.lookup id with
    | none =>
      rw [hlookup] at h
      cases h
    | some b =>
      rw [hlookup] at h
      cases h
      exact ⟨rfl, rfl⟩

theorem leavesTo_addressOf (id : Int) : LeavesTo calls a x (addressOf env id) fun b => env.lookup id = some b := by
  intro s t b hs hok
  obtain ⟨hlookup, rfl⟩ := addressOf_eq_ok hok
  exact ⟨hs, hlookup⟩

theorem leaves_writeVar (hne : b ≠ a) (v : Value) : Leaves calls a x (writeVar b v) := by
  intro s t y hs hok
  rw [writeVar_eq_ok hok]
  exact ⟨hs.set hne (by simp), trivial⟩

theorem leaves_setElement (v : Value) (i : Int) (y : Value) : Leaves calls a x (setElement v i y) := by
  unfold setElement
  split
  · next b =>
    intro s t z hs hok
    obtain ⟨c, u, hc, hok⟩ := bind_eq_ok hok
    obtain ⟨hcell, rfl⟩ := cellAt_eq_ok hc
    cases c with
    | array xs =>
      dsimp only at hok
      split at hok
      · cases hok
      · cases hok
        exact ⟨hs.set (hs.ne hcell (by simp)) (by simp), trivial⟩
    | _ => cases hok
  · exact .stop

theorem leaves_setEntry (v k y : Value) : Leaves calls a x (setEntry v k y) := by
  unfold setEntry
  split
  · next b =>
    intro s t z hs hok
    obtain ⟨c, u, hc, hok⟩ := bind_eq_ok hok
    obtain ⟨hcell, rfl⟩ := cellAt_eq_ok hc
    cases c with
    | map es =>
      cases hok
      exact ⟨hs.set (hs.ne hcell (by simp)) (by simp), trivial⟩
    | _ => cases hok
  · exact .stop

theorem leavesTo_bindAll (ids : List Int) (vs : List Value) (h : Avoids a env env') :
    LeavesTo calls a x (bindAll ids vs env') (Avoids a env) := by
  induction ids generalizing vs env' with
  | nil =>
    cases vs with
    | nil => exact .pure h
    | cons => exact .stop
  | cons id ids ih =>
    cases vs with
    | nil => exact .stop
    | cons v vs => exact (leavesTo_allocate (by simp)).bind fun b hne => ih vs (h.cons hne id)

theorem leaves_libraryCall (depth : Nat) (id : Int) (args : List Value) : Leaves calls a x (libraryCall depth id args) := by
  intro s t y hs hok
  unfold libraryCall at hok
  split at hok
  · split at hok
    · split at hok
      · cases hok
        exact ⟨⟨hs.cell, hs.closures⟩, trivial⟩
      · cases hok
    · split at hok
      · cases hok
        exact ⟨hs, trivial⟩
      · cases hok
  · cases hok

/-! ### Expressions -/

variable {call : Calls}

theorem compositional_leaves : Compositional fun _ m => Leaves calls a x m where
  bind h hf := h.next hf
  looks := .of_looks
  allocate hc := fun _ _ _ hs hok => ⟨(leavesTo_allocate hc hs hok).1, trivial⟩

theorem leaves_holds (h : Leaves calls a x (eval call env n)) : Leaves calls a x (holds call env n) :=
  compositional_leaves.holds h

/-- Only calls can change a variable while an expression is evaluated. -/
theorem leaves_eval (hcall : n.HasCall → ∀ f xs, Leaves calls a x (call f xs)) :
    Leaves calls a x (eval call env n) := by
  induction n with
  | h n ih =>
    refine compositional_leaves.eval ?_ fun c hc => ih c hc fun h => hcall (h.of_child hc)
    rintro callee args type rfl
    exact hcall ⟨callee, args, type, .refl _⟩

/-! ### Statements -/

theorem leavesTo_target (h : Spares a env n) (hid : n.target? = some id) :
    LeavesTo calls a x (addressOf env id) (· ≠ a) := by
  intro s t b hs hok
  obtain ⟨ht, hb⟩ := leavesTo_addressOf id hs hok
  refine ⟨ht, ?_⟩
  rintro rfl
  exact h.self id hid hb

section Statements

variable (hcall : ∀ f xs, Leaves calls a x (call f xs))

include hcall

variable {fuel : Nat}
variable {arms : List (Arm Node)} {otherwise : Run (Flow × Env)}

theorem leaves_initial (init : Node) : Leaves calls a x (initial call env init) := by
  unfold initial
  split
  · exact .pure trivial
  · exact leaves_eval fun _ => hcall

theorem leaves_change (h : Spares a env n) : Leaves calls a x (change call env n) := by
  have hcompound {op : BinaryOp} {right : Node} {id : Int} (hid : n.target? = some id) :
      Leaves calls a x (do
        let b ← addressOf env id
        let y ← readVar b
        let z ← eval call env right
        writeVar b (← orFault (operate op y z))) :=
    (leavesTo_target h hid).bind fun b hb => (LeavesTo.of_looks (.readVar b)).next fun _ =>
      (leaves_eval fun _ => hcall).next fun _ => (LeavesTo.of_looks (.orFault _)).next fun _ => leaves_writeVar hb _
  unfold change
  split
  · exact hcompound rfl
  · exact hcompound rfl
  · next op v leading type =>
    cases op with
    | increment | decrement =>
      exact (leavesTo_target h rfl).bind fun b hb => (LeavesTo.of_looks (.readVar b)).next fun _ =>
        (LeavesTo.of_looks (.orFault _)).next fun _ => leaves_writeVar hb _
    | _ =>
      exact (leavesTo_addressOf v.id).next fun b => (LeavesTo.of_looks (.readVar b)).next fun _ => .stop
  · exact .stop

theorem leaves_assignTo {target source : Node} (h : Spares a env (.assign target source)) :
    Leaves calls a x (assignTo call env target source) := by
  have heval (n : Node) : Leaves calls a x (eval call env n) := leaves_eval fun _ => hcall
  unfold assignTo
  split
  · next v =>
    exact (heval source).next fun _ => (leavesTo_target h rfl).bind fun b hb => leaves_writeVar hb _
  · next array i type =>
    exact (heval array).next fun _ => (heval source).next fun _ => leaves_setElement _ i _
  · next map key type =>
    exact (heval map).next fun _ => (heval key).next fun _ => (heval source).next fun _ => leaves_setEntry _ _ _
  · exact .stop

omit hcall in
theorem leaves_loop {condition : Run Bool} {body : Run Flow} {step : Run Unit} (hcondition : Leaves calls a x condition)
    (hbody : Leaves calls a x body) (hstep : Leaves calls a x step) (fuel : Nat) : Leaves calls a x (loop condition body step fuel) := by
  induction fuel with
  | zero => exact .stop
  | succ fuel ih =>
    refine hcondition.next fun b => ?_
    cases b with
    | false => exact .pure trivial
    | true =>
      refine hbody.next fun flow => ?_
      cases flow with
      | onward | next => exact hstep.next fun _ => ih
      | chop | back => exact .pure trivial

abbrev ExecLeaves (calls : Prop) (a : Address) (x : Value) (call : Calls) (fuel : Nat) (n : Node) : Prop :=
  ∀ env, Spares a env n → LeavesTo calls a x (exec call fuel env n) fun r => Avoids a env r.2

omit hcall in
theorem leavesTo_execAll (hns : ∀ n ∈ ns, ExecLeaves calls a x call fuel n)
    (hspares : ∀ n ∈ ns, Spares a env n) (h : Avoids a env env') :
    LeavesTo calls a x (execAll call fuel env' ns) fun r => Avoids a env r.2 := by
  induction ns generalizing env' with
  | nil => exact .pure h
  | cons n ns ih =>
    obtain ⟨hn, hns⟩ := forall_mem_cons.mp hns
    obtain ⟨hspare, hspares⟩ := forall_mem_cons.mp hspares
    refine (hn env' (hspare.mono h)).bind ?_
    rintro ⟨flow, env''⟩ h'
    have hboth : Avoids a env env'' := fun id hid => h id (h' id hid)
    cases flow with
    | onward => exact ih hns hspares hboth
    | chop | next | back => exact .pure hboth

omit hcall in
theorem leaves_execBlock {ns : Option (List Node)}
    (hns : ∀ n ∈ ns.getD [], ExecLeaves calls a x call fuel n)
    (hspares : ∀ n ∈ ns.getD [], Spares a env n) :
    Leaves calls a x (execBlock call fuel env ns) := by
  cases ns with
  | none => exact .pure trivial
  | some ns =>
    intro s t r hs hok
    exact ⟨(leavesTo_execAll hns hspares (.refl a env) hs hok).1, trivial⟩

theorem leaves_execArms (hotherwise : Leaves calls a x otherwise)
    (harms : ∀ n ∈ arms.flatMap Arm.children, ExecLeaves calls a x call fuel n)
    (hspares : ∀ n ∈ arms.flatMap Arm.children, Spares a env n) :
    Leaves calls a x (execArms call fuel env otherwise arms) := by
  induction arms with
  | nil => exact hotherwise
  | cons _ _ ih =>
    obtain ⟨-, hbody, hrest⟩ := Node.forall_mem_armChildren.mp harms
    obtain ⟨-, hbodySpared, hrestSpared⟩ := Node.forall_mem_armChildren.mp hspares
    refine (leaves_holds (leaves_eval fun _ => hcall)).next fun b => ?_
    cases b with
    | true => exact leaves_execBlock hbody hbodySpared
    | false => exact ih hrest hrestSpared

theorem leaves_execCases {v : Value} (hotherwise : Leaves calls a x otherwise)
    (harms : ∀ n ∈ arms.flatMap Arm.children, ExecLeaves calls a x call fuel n)
    (hspares : ∀ n ∈ arms.flatMap Arm.children, Spares a env n) :
    Leaves calls a x (execCases call fuel env v otherwise arms) := by
  induction arms with
  | nil => exact hotherwise
  | cons _ _ ih =>
    obtain ⟨-, hbody, hrest⟩ := Node.forall_mem_armChildren.mp harms
    obtain ⟨-, hbodySpared, hrestSpared⟩ := Node.forall_mem_armChildren.mp hspares
    refine (leaves_eval fun _ => hcall).next fun y => ?_
    split
    · exact leaves_execBlock hbody hbodySpared
    · exact ih hrest hrestSpared

omit hcall in
theorem leavesTo_onward {γ : Type} {m : Run γ} (h : Leaves calls a x m) (flow : γ → Flow) :
    LeavesTo calls a x (do let y ← m; return (flow y, env)) fun r => Avoids a env r.2 :=
  h.next fun _ => .pure (.refl a env)

theorem leavesTo_exec (fuel : Nat) (n : Node) : ExecLeaves calls a x call fuel n := by
  induction n with
  | h n ih =>
    intro env hspares
    have heval (e : Node) {env : Env} : Leaves calls a x (eval call env e) := leaves_eval fun _ => hcall
    have hparts : ∀ c ∈ n.children, Spares a env c := hspares.children
    have hevaluated (h : isEvaluated n = true) :
        LeavesTo calls a x (exec call fuel env n) fun r => Avoids a env r.2 := by
      rw [exec_of_isEvaluated h]
      exact leavesTo_onward (heval n) fun _ => .onward
    cases n with
    | varDecl _ _ init _ _ entity =>
      cases entity with
      | none => exact hevaluated rfl
      | some v =>
        simp only [exec]
        exact (leaves_initial hcall init).next fun _ =>
          (leavesTo_allocate (by simp)).bind fun b hb => .pure ((Avoids.refl a env).cons hb v.id)
    | funDecl _ _ _ params body entity =>
      cases entity with
      | none => exact hevaluated rfl
      | some f =>
        have hcode : LeavesTo calls a x (allocateFunction ⟨f.id, parameterIds params, body⟩ env) (Avoids a env) :=
          leavesTo_allocateFunction hparts
        simp only [exec]
        exact hcode.bind fun env' h => .pure h
    | assign =>
      simp only [exec]
      exact leavesTo_onward (leaves_assignTo hcall hspares) fun _ => .onward
    | binary _ op =>
      cases op with
      | addAssign | subAssign =>
        simp only [exec]
        exact leavesTo_onward (leaves_change hcall hspares) fun _ => .onward
      | _ => exact hevaluated rfl
    | unary op =>
      cases op with
      | increment | decrement =>
        simp only [exec]
        exact leavesTo_onward (leaves_change hcall hspares) fun _ => .onward
      | _ => exact hevaluated rfl
    | ifElse =>
      obtain ⟨hcases, hotherwise⟩ := forall_mem_append.mp ih
      obtain ⟨hcasesSpared, hotherwiseSpared⟩ := forall_mem_append.mp hparts
      simp only [exec]
      exact leavesTo_onward (leaves_execArms hcall (leaves_execBlock hotherwise hotherwiseSpared) hcases hcasesSpared) _
    | «switch» scrutinee cases default =>
      obtain ⟨hcases, hdefault⟩ := forall_mem_append.mp (forall_mem_cons.mp ih).2
      obtain ⟨hcasesSpared, hdefaultSpared⟩ := forall_mem_append.mp (forall_mem_cons.mp hparts).2
      simp only [exec]
      exact (heval scrutinee).next fun y =>
        leavesTo_onward (leaves_execCases hcall (leaves_execBlock hdefault hdefaultSpared) hcases hcasesSpared) _
    | whileLoop condition =>
      have hbody := leaves_execBlock (forall_mem_cons.mp ih).2 (forall_mem_cons.mp hparts).2
      simp only [exec]
      exact leavesTo_onward (leaves_loop (leaves_holds (heval condition)) (hbody.next fun _ => .pure trivial)
        (.pure trivial) fuel) id
    | forLoop name init condition step body entity =>
      cases entity with
      | none => exact hevaluated rfl
      | some v =>
        obtain ⟨-, -, -, hbody⟩ : _ ∧ _ ∧ _ ∧ ∀ n ∈ body.getD [], ExecLeaves calls a x call fuel n := by
          simpa only [Node.children, forall_mem_cons] using ih
        obtain ⟨-, -, hstepSpared, hbodySpared⟩ : _ ∧ _ ∧ Spares a env step ∧ ∀ n ∈ body.getD [], Spares a env n := by
          simpa only [Node.children, forall_mem_cons] using hparts
        simp only [exec]
        refine (heval init).next fun y => (leavesTo_allocate (by simp)).bind fun b hb => ?_
        have havoids : Avoids a env ((v.id, b) :: env) := (Avoids.refl a env).cons hb v.id
        have hblock := leaves_execBlock hbody fun n hn => (hbodySpared n hn).mono havoids
        exact leavesTo_onward (leaves_loop (leaves_holds (heval condition)) (hblock.next fun _ => .pure trivial)
          (leaves_change hcall (hstepSpared.mono havoids)) fuel) id
    | giveBack value =>
      simp only [exec]
      exact leavesTo_onward (heval value) .back
    | giveBackNothing | chop | next => exact .pure (.refl a env)
    | _ => exact hevaluated rfl

end Statements

/-! ### Calls -/

theorem leaves_result (flow : Flow) : Leaves calls a x (result flow) := by
  cases flow with
  | onward | back => exact .pure trivial
  | chop | next => exact .stop

/-- No call changes a variable that no function in memory assigns to. -/
theorem leaves_callAt (hcalls : calls) (fuel : Nat) (f : Value) (xs : List Value) :
    Leaves calls a x (callAt fuel f xs) := by
  induction fuel generalizing f xs with
  | zero => exact .stop
  | succ fuel ih =>
    cases f with
    | library id => exact leaves_libraryCall fuel id xs
    | ref b =>
      intro s t y hs hok
      obtain ⟨c, u, hc, hok⟩ := bind_eq_ok hok
      obtain ⟨hcell, rfl⟩ := cellAt_eq_ok hc
      cases c with
      | closure code env =>
        have hspares := hs.closures hcalls code env (List.mem_of_getElem? hcell)
        have hbody : Leaves calls a x (do
            let inner ← bindAll code.params xs env
            result (← execBlock (callAt fuel) fuel inner code.body).1) :=
          (leavesTo_bindAll code.params xs (.refl a env)).bind fun inner hinner =>
            (leaves_execBlock (fun n _ => leavesTo_exec ih fuel n) fun n hn => (hspares n hn).mono hinner).next
              fun r => leaves_result r.1
        exact hbody hs hok
      | _ => cases hok
    | _ => exact .stop

end Semantics

end LemonScript
