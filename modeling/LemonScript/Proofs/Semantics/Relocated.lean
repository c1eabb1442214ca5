import LemonScript.Proofs.Semantics.Relocation
/-!
# Runs on a memory with one more cell

Whatever is run from a closed record, it runs in the same way on the memory with one more cell. It makes
the same calls, prints the same and comes to the same end, with the addresses moved. The record that it
leaves is closed.
-/

namespace LemonScript

open Semantics Located
open List (forall_mem_append forall_mem_cons)

namespace Record

def size (r : Record) : Nat := r.state.memory.length

def moved (a : Nat) (c : Cell) (r : Record) : Record := ⟨r.state.moved a c, Located.moved a r.calls⟩

/-- All addresses on record lead to a cell. -/
structure Closed (r : Record) : Prop where
  state : r.state.Closed
  calls : Within r.size r.calls

end Record

namespace Recorded

variable {α β : Type} [Located α] [Located β] {a : Nat} {c : Cell} {k : Nat}

/-- An end of a run and its end on the memory with one more cell. -/
inductive CommutesTo (a : Nat) (c : Cell) (n : Nat) :
    Except Halt α × Record → Except Halt α × Record → Prop
  | ok {x : α} {r : Record} (hgrows : n ≤ r.size) (hr : r.Closed) (hx : Within r.size x) :
    CommutesTo a c n (.ok x, r) (.ok (moved a x), r.moved a c)
  | error {reason : Halt} {r : Record} (hgrows : n ≤ r.size) (hr : r.Closed) :
    CommutesTo a c n (.error reason, r) (.error reason, r.moved a c)

/-- From every closed record with at least `k` cells, the second run does on the memory with one more cell
what the first one does without it, and the record stays closed. -/
def Commutes (a : Nat) (c : Cell) (k : Nat) (m m' : Recorded α) : Prop :=
  ∀ r : Record, a ≤ r.size → k ≤ r.size → r.Closed → CommutesTo a c r.size (m r) (m' (r.moved a c))

variable {m m' : Recorded α}
variable {leading leading' : Bool} {ns : List Node} {env : Env}

theorem commutes_pure {x : α} (hx : Within k x) : Commutes a c k (pure x) (pure (moved a x)) :=
  fun _ _ hk hr => .ok le_rfl hr (mono hk hx)

theorem commutes_halt (reason : Halt) : Commutes a c k (halt reason : Recorded α) (halt reason) :=
  fun _ _ _ hr => .error le_rfl hr

theorem Commutes.mono (h : Commutes a c k m m') {j : Nat} (hle : k ≤ j) :
    Commutes a c j m m' := fun r ha hj hr => h r ha (hle.trans hj) hr

theorem Commutes.bind {f f' : α → Recorded β} (hm : Commutes a c k m m')
    (hf : ∀ {j x}, k ≤ j → Within j x → Commutes a c j (f x) (f' (moved a x))) :
    Commutes a c k (m >>= f) (m' >>= f') := by
  intro r ha hk hr
  have h := hm r ha hk hr
  change CommutesTo a c _ (ExceptT.bindCont f (m r).1 (m r).2)
    (ExceptT.bindCont f' (m' (r.moved a c)).1 (m' (r.moved a c)).2)
  generalize m r = end₁, m' (r.moved a c) = end₂ at h
  cases h with
  | error hgrows hr => exact .error hgrows hr
  | @ok x t hgrows ht hx =>
    have hrest := hf (hk.trans hgrows) hx t (ha.trans hgrows) le_rfl ht
    change CommutesTo a c _ (f x t) (f' (moved a x) (t.moved a c))
    generalize f x t = end₃, f' (moved a x) (t.moved a c) = end₄ at hrest
    cases hrest with
    | error hgrows' hu => exact .error (hgrows.trans hgrows') hu
    | ok hgrows' hu hy => exact .ok (hgrows.trans hgrows') hu hy

theorem Commutes.map (h : Commutes a c k m m') {f f' : α → β}
    (hf : ∀ {j x}, Within j x → Within j (f x) ∧ f' (moved a x) = moved a (f x)) :
    Commutes a c k (f <$> m) (f' <$> m') := by
  rw [map_eq_pure_bind, map_eq_pure_bind]
  refine h.bind fun {j x} _ hx => ?_
  rw [(hf hx).2]
  exact commutes_pure (hf hx).1

theorem Commutes.ite {n n' : Recorded α} (hm : Commutes a c k m m') (hn : Commutes a c k n n')
    (b : Bool) : Commutes a c k (if b then m else n) (if b then m' else n') := by
  cases b <;> assumption

theorem commutes_keep {m m' : Run α} (h : Moves a c k m m') : Commutes a c k (keep m) (keep m') := by
  intro r ha hk hr
  have hstep := h r.state ha hk hr.state
  generalize h₁ : m r.state = end₁, h₂ : m' (r.state.moved a c) = end₂ at hstep
  cases hstep with
  | error =>
    rw [keep_of_error h₁, keep_of_error (r := r.moved a c) h₂]
    exact .error le_rfl hr
  | @ok x t hgrows ht hx =>
    rw [keep_of_ok h₁, keep_of_ok (r := r.moved a c) h₂]
    exact .ok (r := { r with state := t }) hgrows ⟨ht, mono hgrows hr.calls⟩ hx

theorem commutes_note {f : Value} {xs : List Value} (hf : Within k f) (hxs : Within k xs) :
    Commutes a c k (note f xs) (note (moved a f) (moved a xs)) := by
  intro r _ hk hr
  have hcalls : Within r.size (r.calls ++ [(f, xs)]) :=
    forall_mem_append.mpr ⟨hr.calls, List.forall_mem_singleton.mpr ⟨Located.mono hk hf, Located.mono hk hxs⟩⟩
  have hmoved : { r.moved a c with calls := (r.moved a c).calls ++ [(moved a f, moved a xs)] } =
      Record.moved a c { r with calls := r.calls ++ [(f, xs)] } := by
    unfold Record.moved
    rw [show moved a (r.calls ++ [(f, xs)]) = moved a r.calls ++ [(moved a f, moved a xs)] from List.map_append]
  unfold note
  rw [hmoved]
  exact .ok (x := ()) (r := { r with calls := r.calls ++ [(f, xs)] }) le_rfl ⟨hr.state, hcalls⟩ trivial

theorem commutes_applied (op : BinaryOp) (x y : Value) :
    Commutes a c k (applied op x y) (applied op (moved a x) (moved a y)) := by
  have hfailure : failure op (moved a x) (moved a y) = failure op x y := by
    cases x <;> cases y <;> rfl
  unfold applied
  rw [operate_moved, hfailure]
  cases hop : operate op x y with
  | none => exact commutes_halt _
  | some v =>
    have hv := within_operate hop
    have hpure := commutes_pure (a := a) (c := c) (Located.mono (Nat.zero_le k) hv)
    rwa [moved_eq (Located.mono (Nat.zero_le a) hv)] at hpure

def Respecting (a : Nat) (c : Cell) (call : Calls) : Prop :=
  ∀ {k : Nat} {f : Value} {xs : List Value}, Within k f → Within k xs →
    Commutes a c k (call f xs) (call (moved a f) (moved a xs))

/-! ### Expressions -/

section Expressions

variable {call : Calls} {env env' : Env} {left left' right right' : Node} {type type' : Ty}
variable {es : List (Entry Node)} {g : Node → Node}

theorem commutes_holds {condition condition' : Node}
    (h : Commutes a c k (eval call env condition) (eval call env' condition')) :
    Commutes a c k (holds call env condition) (holds call env' condition') :=
  h.bind fun {_ x} _ _ => commutes_keep (moves_truth x)

theorem commutes_bool {m m' : Recorded Bool} (h : Commutes a c k m m') :
    Commutes a c k (do return Value.bool (← m)) (do return Value.bool (← m')) :=
  h.bind fun {_ b} _ _ => commutes_pure (x := Value.bool b) trivial

theorem commutes_binary (op : BinaryOp) (hleft : Commutes a c k (eval call env left) (eval call env' left'))
    (hright : Commutes a c k (eval call env right) (eval call env' right')) :
    Commutes a c k (eval call env (.binary left op right type))
      (eval call env' (.binary left' op right' type')) := by
  cases hop : isLogic op with
  | false =>
    rw [eval_strict hop, eval_strict hop]
    exact hleft.bind fun {_ x} hle _ => (hright.mono hle).bind fun {_ y} _ _ => commutes_applied op x y
  | true =>
    rw [eval_logic hop, eval_logic hop]
    refine (commutes_holds hleft).bind fun {_ b} hle _ => ?_
    change Commutes a c _ (if b = decides op then _ else _) (if b = decides op then _ else _)
    split
    · exact commutes_bool (commutes_holds (hright.mono hle))
    · exact commutes_pure (x := Value.bool b) trivial

theorem commutes_unary (op : UnaryOp)
    (h : Commutes a c k (eval call env left) (eval call env' left')) :
    Commutes a c k (eval call env (.unary op left leading type))
      (eval call env' (.unary op left' leading' type')) := by
  rw [eval, eval]
  exact h.bind fun {_ x} _ _ => commutes_keep (moves_operateUnary op x)

theorem commutes_evalAll
    (h : ∀ n ∈ ns, Commutes a c k (eval call env (g n)) (eval call env' n)) :
    Commutes a c k (evalAll call env (ns.map g)) (evalAll call env' ns) := by
  induction ns with
  | nil => exact commutes_pure (x := ([] : List Value)) (List.forall_mem_nil _)
  | cons n ns ih =>
    obtain ⟨hn, hns⟩ := forall_mem_cons.mp h
    rw [List.map_cons, evalAll, evalAll]
    refine hn.bind fun {_ x} hle hx => ((ih hns).mono hle).bind fun {_ xs} hle hxs => ?_
    exact commutes_pure (x := x :: xs) (forall_mem_cons.mpr ⟨Located.mono hle hx, hxs⟩)

theorem commutes_call (hcall : Respecting a c call) {args : Option (List Node)}
    (hcallee : Commutes a c k (eval call env left) (eval call env' left'))
    (hargs : ∀ n ∈ args.getD [], Commutes a c k (eval call env (g n)) (eval call env' n)) :
    Commutes a c k (eval call env (.call left (args.map (List.map g)) type))
      (eval call env' (.call left' args type')) := by
  rw [eval, eval, evalOptional_eq, evalOptional_eq, Node.getD_map_map]
  refine hcallee.bind fun {_ f} hle hf => ((commutes_evalAll hargs).mono hle).bind fun {_ xs} hle' hxs => ?_
  have hf := Located.mono hle' hf
  exact (commutes_note hf hxs).bind fun hle'' _ => hcall (Located.mono hle'' hf) (Located.mono hle'' hxs)

theorem commutes_reference {d : Cell} (hd : Within k d) :
    Commutes a c k (do return Value.ref (← keep (allocate d))) (do return Value.ref (← keep (allocate (moved a d)))) :=
  (commutes_keep (moves_allocate hd)).bind fun {_ b} _ hb => commutes_pure (x := Value.ref b) hb

theorem commutes_arrayLit {elements : Option (List Node)}
    (h : ∀ n ∈ elements.getD [], Commutes a c k (eval call env (g n)) (eval call env' n)) :
    Commutes a c k (eval call env (.arrayLit (elements.map (List.map g)) type))
      (eval call env' (.arrayLit elements type')) := by
  rw [eval, eval, evalOptional_eq, evalOptional_eq, Node.getD_map_map]
  exact (commutes_evalAll h).bind fun {_ xs} _ hxs => commutes_reference (d := .array xs) hxs

theorem commutes_evalEntries
    (h : ∀ n ∈ es.flatMap Entry.children, Commutes a c k (eval call env (g n)) (eval call env' n)) :
    Commutes a c k (evalEntries call env (es.map fun e => ⟨g e.key, g e.value⟩)) (evalEntries call env' es) := by
  induction es with
  | nil => exact commutes_pure (x := ([] : List (Value × Value))) (List.forall_mem_nil _)
  | cons e es ih =>
    obtain ⟨he, hes⟩ := forall_mem_append.mp h
    rw [List.map_cons, evalEntries, evalEntries]
    refine (he e.key (.head _)).bind fun {_ key} hle hkey => ?_
    refine ((he e.value (.tail _ (.head _))).mono hle).bind fun {_ x} hle' hx => ?_
    refine ((ih hes).mono (hle.trans hle')).bind fun {_ es} hle'' hes => ?_
    exact commutes_pure (x := (key, x) :: es) (forall_mem_cons.mpr
      ⟨⟨Located.mono (hle'.trans hle'') hkey, Located.mono hle'' hx⟩, hes⟩)

theorem commutes_mapLit
    (h : ∀ n ∈ es.flatMap Entry.children, Commutes a c k (eval call env (g n)) (eval call env' n)) :
    Commutes a c k (eval call env (.mapLit (es.map fun e => ⟨g e.key, g e.value⟩) type))
      (eval call env' (.mapLit es type')) := by
  rw [eval, eval]
  refine (commutes_evalEntries h).bind fun {_ es} _ hes => ?_
  rw [mapOf_moved]
  exact commutes_reference (d := .map (mapOf es)) (within_mapOf hes)

theorem commutes_member (index : Option Int) (h : Commutes a c k (eval call env left) (eval call env' left')) :
    Commutes a c k (eval call env (.member left index type)) (eval call env' (.member left' index type')) := by
  cases index with
  | none => exact commutes_halt _
  | some i =>
    rw [eval, eval]
    exact h.bind fun {_ x} _ _ => commutes_keep (moves_elementOf x i)

theorem commutes_property (hleft : Commutes a c k (eval call env left) (eval call env' left'))
    (hright : Commutes a c k (eval call env right) (eval call env' right')) :
    Commutes a c k (eval call env (.property left right type)) (eval call env' (.property left' right' type')) := by
  rw [eval, eval]
  exact hleft.bind fun {_ x} hle _ => (hright.mono hle).bind fun {_ key} _ _ => commutes_keep (moves_entryOf x key)

theorem commutes_var (henv : Within k env) (v : Variable) :
    Commutes a c k (eval call env (.var v)) (eval call (moved a env) (.var v)) := by
  refine commutes_keep ?_
  simp only [Semantics.eval]
  split
  · exact moves_pure (x := Value.float _) trivial
  · exact (moves_addressOf henv v.id).bind fun {_ b} _ _ => moves_readVar b

theorem commutes_fn (henv : Within k env) (f : Function) :
    Commutes a c k (eval call env (.fn f)) (eval call (moved a env) (.fn f)) := by
  refine commutes_keep ?_
  simp only [Semantics.eval]
  split
  · exact moves_pure (x := Value.library f.id) trivial
  · exact (moves_addressOf henv f.id).bind fun {_ b} _ hb => moves_functionAt b hb

/-- An expression that is no name commutes as soon as its children do. -/
theorem commutes_mapChildren (hcall : Respecting a c call) (hvar : ∀ v, n ≠ .var v) (hfn : ∀ f, n ≠ .fn f)
    (h : ∀ m ∈ n.children, Commutes a c k (eval call env (g m)) (eval call env' m)) :
    Commutes a c k (eval call env (n.mapChildren g)) (eval call env' n) := by
  cases n with
  | var v => exact absurd rfl (hvar v)
  | fn f => exact absurd rfl (hfn f)
  | binary left op right => exact commutes_binary op (h left (.head _)) (h right (.tail _ (.head _)))
  | unary op operand => exact commutes_unary op (h operand (.head _))
  | call =>
    obtain ⟨hcallee, hargs⟩ := forall_mem_cons.mp h
    exact commutes_call hcall hcallee hargs
  | arrayLit => exact commutes_arrayLit h
  | mapLit => exact commutes_mapLit h
  | member array index => exact commutes_member index (h array (.head _))
  | property map key => exact commutes_property (h map (.head _)) (h key (.tail _ (.head _)))
  | intLit n => exact commutes_keep (moves_pure (x := Value.int n) trivial)
  | floatLit x => exact commutes_keep (moves_pure (x := Value.float x) trivial)
  | stringLit text => exact commutes_keep (moves_pure (x := Value.string text) trivial)
  | boolLit _ b => exact commutes_keep (moves_pure (x := Value.bool b) trivial)
  | _ => exact commutes_halt _

theorem commutes_eval (hcall : Respecting a c call) (henv : Within k env) (n : Node) :
    Commutes a c k (eval call env n) (eval call (moved a env) n) := by
  induction n with
  | h n ih =>
  cases n with
  | var v => exact commutes_var henv v
  | fn f => exact commutes_fn henv f
  | _ =>
    have hself := commutes_mapChildren (g := id) hcall (by simp) (by simp) ih
    rwa [Node.mapChildren_id] at hself

end Expressions

/-! ### Assignments -/

section Assignments

variable {call : Calls} {env env' : Env} {left left' right right' source source' : Node} {type type' : Ty}
  {v : Variable}

theorem commutes_change_compound {op : BinaryOp} (hop : op = .addAssign ∨ op = .subAssign)
    (haddress : Moves a c k (addressOf env v.id) (addressOf env' v.id))
    (hright : Commutes a c k (eval call env right) (eval call env' right')) :
    Commutes a c k (change call env (.binary (.var v) op right type))
      (change call env' (.binary (.var v) op right' type')) := by
  have hwrite (op : BinaryOp) {j : Nat} {b : Address} {x : Value} (y : Value) :
      Commutes a c j (keep (do writeVar b (← orFault (operate op x y))))
        (keep (do writeVar (shift a b) (← orFault (operate op (moved a x) (moved a y))))) :=
    commutes_keep ((moves_operate op x y).bind fun {_ z} _ hz => moves_writeVar b hz)
  rcases hop with rfl | rfl
  all_goals
    rw [change, change]
    refine (commutes_keep haddress).bind fun {_ b} hle _ => ?_
    refine (commutes_keep (moves_readVar b)).bind fun {_ x} hle' _ => ?_
    exact (hright.mono (hle.trans hle')).bind fun {_ y} _ _ => hwrite _ y

theorem commutes_change_unary {op : UnaryOp}
    (haddress : Moves a c k (addressOf env v.id) (addressOf env' v.id)) :
    Commutes a c k (change call env (.unary op (.var v) leading type))
      (change call env' (.unary op (.var v) leading' type')) := by
  refine commutes_keep (haddress.bind fun {_ b} _ _ => ?_)
  refine (moves_readVar b).bind fun {_ x} _ _ => ?_
  exact (moves_stepped op x).bind fun {_ y} _ hy => moves_writeVar b hy

theorem commutes_assignTo_var (haddress : Moves a c k (addressOf env v.id) (addressOf env' v.id))
    (hsource : Commutes a c k (eval call env source) (eval call env' source')) :
    Commutes a c k (assignTo call env (.var v) source) (assignTo call env' (.var v) source') :=
  hsource.bind fun hle hy =>
    commutes_keep ((haddress.mono hle).bind fun {_ b} hle' _ => moves_writeVar b (Located.mono hle' hy))

theorem commutes_assignTo_member (index : Option Int)
    (hleft : Commutes a c k (eval call env left) (eval call env' left'))
    (hsource : Commutes a c k (eval call env source) (eval call env' source')) :
    Commutes a c k (assignTo call env (.member left index type) source)
      (assignTo call env' (.member left' index type') source') := by
  cases index with
  | none => exact commutes_halt _
  | some i =>
    exact hleft.bind fun {_ x} hle _ => (hsource.mono hle).bind fun {_ y} _ hy =>
      commutes_keep (moves_setElement x i hy)

theorem commutes_assignTo_property (hleft : Commutes a c k (eval call env left) (eval call env' left'))
    (hright : Commutes a c k (eval call env right) (eval call env' right'))
    (hsource : Commutes a c k (eval call env source) (eval call env' source')) :
    Commutes a c k (assignTo call env (.property left right type) source)
      (assignTo call env' (.property left' right' type') source') :=
  hleft.bind fun {_ x} hle _ => (hright.mono hle).bind fun hle' hkey =>
    (hsource.mono (hle.trans hle')).bind fun hle'' hy =>
      commutes_keep (moves_setEntry x (Located.mono hle'' hkey) hy)

theorem commutes_change (hcall : Respecting a c call) (henv : Within k env) (n : Node) :
    Commutes a c k (change call env n) (change call (moved a env) n) := by
  cases n with
  | binary left op right =>
    cases left with
    | var v =>
      have hright := commutes_eval hcall henv right
      cases op with
      | addAssign => exact commutes_change_compound (.inl rfl) (moves_addressOf henv v.id) hright
      | subAssign => exact commutes_change_compound (.inr rfl) (moves_addressOf henv v.id) hright
      | _ => exact commutes_halt _
    | _ => exact commutes_halt _
  | unary _ operand =>
    cases operand with
    | var v => exact commutes_change_unary (moves_addressOf henv v.id)
    | _ => exact commutes_halt _
  | _ => exact commutes_halt _

theorem commutes_assignTo (hcall : Respecting a c call) (henv : Within k env) (target source : Node) :
    Commutes a c k (assignTo call env target source) (assignTo call (moved a env) target source) := by
  have hsource := commutes_eval hcall henv source
  cases target with
  | var v => exact commutes_assignTo_var (moves_addressOf henv v.id) hsource
  | member array index => exact commutes_assignTo_member index (commutes_eval hcall henv array) hsource
  | property map key =>
    exact commutes_assignTo_property (commutes_eval hcall henv map) (commutes_eval hcall henv key) hsource
  | _ => exact commutes_halt _

theorem commutes_initial (hcall : Respecting a c call) (henv : Within k env) (init : Node) :
    Commutes a c k (initial call env init) (initial call (moved a env) init) := by
  cases init with
  | missing => exact commutes_pure (x := Value.unset) trivial
  | _ => exact commutes_eval hcall henv _

end Assignments

/-! ### Statements -/

theorem commutes_loop {condition condition' : Recorded Bool} {body body' : Recorded Flow}
    {step step' : Recorded Unit} (hcondition : Commutes a c k condition condition')
    (hbody : Commutes a c k body body') (hstep : Commutes a c k step step') (fuel : Nat) :
    Commutes a c k (loop condition body step fuel) (loop condition' body' step' fuel) := by
  induction fuel with
  | zero => exact commutes_halt _
  | succ fuel ih =>
    refine hcondition.bind fun {_ b} hle _ => Commutes.ite ?_ (commutes_pure (x := Flow.onward) trivial) b
    refine (hbody.mono hle).bind fun {_ flow} hle' hflow => ?_
    have hle := hle.trans hle'
    cases flow with
    | onward | next => exact (hstep.mono hle).bind fun hle' _ => ih.mono (hle.trans hle')
    | chop => exact commutes_pure (x := Flow.onward) trivial
    | back v => exact commutes_pure (x := Flow.back v) hflow

theorem commutes_flow {m m' : Recorded Flow} (h : Commutes a c k m m') (henv : Within k env) :
    Commutes a c k (do return (← m, env)) (do return (← m', moved a env)) :=
  h.bind fun {_ flow} hle hflow => commutes_pure (x := (flow, env)) ⟨hflow, Located.mono hle henv⟩

theorem commutes_first {m m' : Recorded (Flow × Env)} (h : Commutes a c k m m') :
    Commutes a c k (Prod.fst <$> m) (Prod.fst <$> m') :=
  h.map fun hx => ⟨hx.1, rfl⟩

theorem commutes_onward (h : Commutes a c k m m') (henv : Within k env) :
    Commutes a c k (do let _ ← m; return (Flow.onward, env)) (do let _ ← m'; return (Flow.onward, moved a env)) :=
  h.bind fun hle _ => commutes_pure (x := (Flow.onward, env)) ⟨trivial, Located.mono hle henv⟩

def Commuting (a : Nat) (c : Cell) (call : Calls) (fuel : Nat) (n : Node) : Prop :=
  ∀ {k : Nat} {env : Env}, Within k env →
    Commutes a c k (exec call fuel env n) (exec call fuel (moved a env) n)

section Statements

variable {call : Calls} {env : Env} {fuel : Nat}
variable {arms : List (Arm Node)} {n : Node}

theorem commutes_execAll (h : ∀ n ∈ ns, Commuting a c call fuel n) (henv : Within k env) :
    Commutes a c k (execAll call fuel env ns) (execAll call fuel (moved a env) ns) := by
  induction ns generalizing k env with
  | nil => exact commutes_pure (x := (Flow.onward, env)) ⟨trivial, henv⟩
  | cons n ns ih =>
    obtain ⟨hn, hns⟩ := forall_mem_cons.mp h
    rw [execAll, execAll]
    refine (hn henv).bind fun {_ r} hle hr => ?_
    obtain ⟨flow, env⟩ := r
    cases flow with
    | onward => exact ih hns hr.2
    | chop => exact commutes_pure (x := (Flow.chop, env)) hr
    | next => exact commutes_pure (x := (Flow.next, env)) hr
    | back v => exact commutes_pure (x := (Flow.back v, env)) hr

theorem commutes_execBlock {ns : Option (List Node)} (h : ∀ n ∈ ns.getD [], Commuting a c call fuel n)
    (henv : Within k env) : Commutes a c k (execBlock call fuel env ns) (execBlock call fuel (moved a env) ns) := by
  cases ns with
  | none => exact commutes_pure (x := (Flow.onward, env)) ⟨trivial, henv⟩
  | some ns => exact commutes_execAll h henv

theorem commutes_execArms (hcall : Respecting a c call)
    (h : ∀ n ∈ arms.flatMap Arm.children, Commuting a c call fuel n) (henv : Within k env)
    {m m' : Recorded (Flow × Env)} (hm : Commutes a c k m m') :
    Commutes a c k (execArms call fuel env m arms) (execArms call fuel (moved a env) m' arms) := by
  induction arms with
  | nil => exact hm
  | cons arm arms ih =>
    rw [List.flatMap_cons, forall_mem_append] at h
    rw [execArms, execArms]
    refine (commutes_holds (commutes_eval hcall henv arm.guard)).bind fun {_ b} hle _ => ?_
    exact Commutes.ite (commutes_execBlock (forall_mem_cons.mp h.1).2 (Located.mono hle henv))
      ((ih h.2).mono hle) b

theorem commutes_execCases (hcall : Respecting a c call)
    (h : ∀ n ∈ arms.flatMap Arm.children, Commuting a c call fuel n) (henv : Within k env)
    {m m' : Recorded (Flow × Env)} (hm : Commutes a c k m m') (x : Value) :
    Commutes a c k (execCases call fuel env x m arms)
      (execCases call fuel (moved a env) (moved a x) m' arms) := by
  induction arms with
  | nil => exact hm
  | cons arm arms ih =>
    rw [List.flatMap_cons, forall_mem_append] at h
    rw [execCases, execCases]
    refine (commutes_eval hcall henv arm.guard).bind fun {_ y} hle _ => ?_
    rw [same_moved]
    exact Commutes.ite (commutes_execBlock (forall_mem_cons.mp h.1).2 (Located.mono hle henv))
      ((ih h.2).mono hle) _

theorem exec_of_isEvaluated (h : isEvaluated n) :
    exec call fuel env n = (do let _ ← eval call env n; return (.onward, env)) := by
  unfold isEvaluated at h
  split at h <;> cases h
  rw [exec] <;> assumption

theorem commutes_evaluated (hcall : Respecting a c call) (henv : Within k env) (h : isEvaluated n) :
    Commutes a c k (exec call fuel env n) (exec call fuel (moved a env) n) := by
  rw [exec_of_isEvaluated h, exec_of_isEvaluated h]
  exact commutes_onward (commutes_eval hcall henv n) henv

theorem commuting_exec (hcall : Respecting a c call) (n : Node) : Commuting a c call fuel n := by
  induction n with
  | h n ih =>
  intro k env henv
  cases n with
  | varDecl _ _ init _ _ entity =>
    cases entity with
    | none => exact commutes_evaluated hcall henv rfl
    | some v =>
      rw [exec, exec]
      refine (commutes_initial hcall henv init).bind fun {_ x} hle hx => ?_
      refine (commutes_keep (moves_allocate (d := .var x) hx)).bind fun {_ b} hle' hb => ?_
      exact commutes_pure (x := (Flow.onward, (v.id, b) :: env))
        ⟨trivial, forall_mem_cons.mpr ⟨⟨trivial, hb⟩, Located.mono (hle.trans hle') henv⟩⟩
  | funDecl _ _ _ _ _ entity =>
    cases entity with
    | none => exact commutes_evaluated hcall henv rfl
    | some f =>
      rw [exec, exec]
      refine (commutes_keep (moves_allocateFunction _ henv)).bind fun {_ inner} _ hinner => ?_
      exact commutes_pure (x := (Flow.onward, inner)) ⟨trivial, hinner⟩
  | assign target source =>
    rw [exec, exec]
    exact commutes_onward (commutes_assignTo hcall henv target source) henv
  | binary _ op =>
    cases op with
    | addAssign | subAssign =>
      rw [exec, exec]
      exact commutes_onward (commutes_change hcall henv _) henv
    | _ => exact commutes_evaluated hcall henv rfl
  | unary op =>
    cases op with
    | increment | decrement =>
      rw [exec, exec]
      exact commutes_onward (commutes_change hcall henv _) henv
    | _ => exact commutes_evaluated hcall henv rfl
  | ifElse =>
    obtain ⟨hcases, hotherwise⟩ := forall_mem_append.mp ih
    rw [exec, exec]
    exact (commutes_execArms hcall hcases henv (commutes_execBlock hotherwise henv)).bind fun {_ r} hle hr =>
      commutes_pure (x := (r.1, env)) ⟨hr.1, Located.mono hle henv⟩
  | switch scrutinee =>
    obtain ⟨hcases, hdefault⟩ := forall_mem_append.mp (forall_mem_cons.mp ih).2
    rw [exec, exec]
    refine (commutes_eval hcall henv scrutinee).bind fun {_ x} hle _ => ?_
    have henv := Located.mono hle henv
    exact (commutes_execCases hcall hcases henv (commutes_execBlock hdefault henv) x).bind fun {_ r} hle hr =>
      commutes_pure (x := (r.1, env)) ⟨hr.1, Located.mono hle henv⟩
  | whileLoop condition =>
    have hbody := commutes_execBlock (forall_mem_cons.mp ih).2 henv
    rw [exec, exec]
    exact commutes_flow (commutes_loop (commutes_holds (commutes_eval hcall henv condition))
      (commutes_first hbody) (commutes_pure (x := ()) trivial) fuel) henv
  | forLoop _ init condition step _ entity =>
    cases entity with
    | none => exact commutes_evaluated hcall henv rfl
    | some v =>
      rw [exec, exec]
      refine (commutes_eval hcall henv init).bind fun {_ x} hle hx => ?_
      refine (commutes_keep (moves_allocate (d := .var x) hx)).bind fun {_ b} hle' hb => ?_
      have henv := Located.mono (hle.trans hle') henv
      have hinner : Within _ ((v.id, b) :: env) := forall_mem_cons.mpr ⟨⟨trivial, hb⟩, henv⟩
      have hbody := commutes_execBlock (fun n hn => ih n (.tail _ (.tail _ (.tail _ hn)))) hinner
      exact commutes_flow (commutes_loop (commutes_holds (commutes_eval hcall hinner condition))
        (commutes_first hbody) (commutes_change hcall hinner step) fuel) henv
  | giveBack e =>
    rw [exec, exec]
    exact (commutes_eval hcall henv e).bind fun {_ x} hle hx =>
      commutes_pure (x := (Flow.back x, env)) ⟨hx, Located.mono hle henv⟩
  | giveBackNothing => exact commutes_pure (x := (Flow.back .unset, env)) ⟨trivial, henv⟩
  | chop => exact commutes_pure (x := (Flow.chop, env)) ⟨trivial, henv⟩
  | next => exact commutes_pure (x := (Flow.next, env)) ⟨trivial, henv⟩
  | _ => exact commutes_evaluated hcall henv rfl

end Statements

/-! ### Functions -/

theorem moves_result {flow : Flow} (h : Within k flow) : Moves a c k (result flow) (result (moved a flow)) := by
  cases flow with
  | onward => exact moves_pure (x := Value.unset) trivial
  | back v => exact moves_pure (x := v) h
  | _ => exact moves_stop _

theorem respecting_callAt (fuel : Nat) : Respecting a c (callAt fuel) := by
  induction fuel with
  | zero => exact fun _ _ => commutes_halt _
  | succ fuel ih =>
    intro k f xs hf hxs
    cases f with
    | ref b =>
      change Commutes a c k _ (callAt (fuel + 1) (.ref (shift a b)) (moved a xs))
      rw [callAt, callAt]
      refine (commutes_keep (moves_cellAt b)).bind fun {_ d} hle hd => ?_
      cases d with
      | closure code env =>
        refine (commutes_keep (moves_bindAll code.params (Located.mono hle hxs) hd)).bind fun {_ inner} _ hinner => ?_
        refine (commutes_execBlock (fun n _ => commuting_exec ih n) hinner).bind fun {_ r} _ hr => ?_
        exact commutes_keep (moves_result hr.1)
      | _ => exact commutes_halt _
    | library id => exact commutes_keep (moves_libraryCall fuel id xs)
    | _ => exact commutes_halt _

end Recorded

end LemonScript
