import LemonScript.Proofs.Semantics.Relocated
import LemonScript.Proofs.Semantics.Unrolled
/-!
# Loops that count

A loop with known bounds runs the copies of its body, one for each value of its variable. The variable
has a cell of its own, which the copies do without. So a run of the loop is a run of the copies on a
memory with one more cell, and it comes to the same end in every case: control may go on or leave, and
any step may fail.
-/

namespace LemonScript

open Semantics Located Simplify
open Library (isLibrary)

def Node.LacksFunction (id : Int) (n : Node) : Prop := ∀ f, PartOf (.fn f) n → f.id ≠ id

variable {n : Node}

theorem Node.LacksFunction.children {id : Int} (h : n.LacksFunction id) :
    ∀ c ∈ n.children, c.LacksFunction id := fun _ hc f hf => h f (.child hc hf)

namespace Recorded

variable {call : Calls} {env : Env} {a k : Nat} {id value : Int}

/-! ### A literal in the place of a variable -/

variable {α : Type} {s : State} {c : Cell}
variable {entity : Option Variable} {ns : List Node} {step : Node} {r : Record}

theorem readVar_of_cell {v : Value} (h : s.memory[a]? = some (.var v)) :
    readVar a s = .ok (v, s) := by
  have hcell : cellAt a s = .ok (.var v, s) := by
    unfold cellAt
    rw [h]
  exact Semantics.bind_of_ok hcell

theorem getElem?_moved_self (ha : a ≤ s.memory.length) : (s.moved a c).memory[a]? = some c :=
  getElem?_inserted_self (ha.trans_eq (List.length_map _).symm)

theorem moves_counter : Moves a (.var (.int value)) k (pure (Value.int value)) (readVar a) := by
  intro s ha _ hs
  rw [readVar_of_cell (getElem?_moved_self ha)]
  exact .ok (x := Value.int value) le_rfl hs trivial

theorem eval_var_cons_ne (v : Variable) (hne : v.id ≠ id) :
    eval call ((id, a) :: env) (.var v) = eval call env (.var v) := by
  simp only [eval, Semantics.eval, addressOf_cons_ne hne]

theorem eval_fn_cons_ne (f : Function) (hne : f.id ≠ id) :
    eval call ((id, a) :: env) (.fn f) = eval call env (.fn f) := by
  simp only [eval, Semantics.eval, addressOf_cons_ne hne]

theorem eval_var_cons_self {v : Variable} (hown : isLibrary v.id = false) :
    eval call ((v.id, a) :: env) (.var v) = keep (readVar a) := by
  simp only [eval, Semantics.eval_var hown, addressOf_cons_self hown, pure_bind]

theorem commutes_put_var (hown : isLibrary id = false) (henv : Within k env) (v : Variable) :
    Commutes a (.var (.int value)) k (eval call env (put id value (.var v)))
      (eval call ((id, a) :: moved a env) (.var v)) := by
  rw [put]
  split
  · next hid =>
    obtain rfl := eq_of_beq hid
    rw [eval_var_cons_self hown]
    exact commutes_keep moves_counter
  · next hid =>
    rw [eval_var_cons_ne v (by simpa using hid)]
    exact commutes_var henv v

/-- The value of an expression in which a literal stands for a variable is its value where the variable
has that literal for its value. -/
theorem commutes_put (hcall : Respecting a (.var (.int value)) call) (hown : isLibrary id = false)
    (henv : Within k env) (n : Node) (hlacks : n.LacksFunction id) :
    Commutes a (.var (.int value)) k (eval call env (put id value n))
      (eval call ((id, a) :: moved a env) n) := by
  induction n with
  | h n ih =>
  replace ih := fun c hc => ih c hc (hlacks.children c hc)
  cases n with
  | var v => exact commutes_put_var hown henv v
  | fn f =>
    rw [eval_fn_cons_ne f (hlacks f (.refl _))]
    exact commutes_fn henv f
  | _ =>
    rw [put_eq_mapChildren id value (by simp)]
    exact commutes_mapChildren hcall (by simp) (by simp) ih

/-! ### Statements that are copied -/

instance {α : Type} [Located α] : Located (Option α) where
  moved a x := x.map (moved a)
  Within n x := ∀ y ∈ x, Within n y
  mono hmn hx y hy := Located.mono hmn (hx y hy)
  moved_eq {a x} hx := by
    cases x with
    | none => rfl
    | some y => exact congrArg some (moved_eq (hx y rfl))

theorem within_none [Located α] : Within k (none : Option α) := by
  intro y hy
  cases hy

def leaving : Option Value → Flow
  | none => .onward
  | some x => .back x

def simply (call : Calls) (env : Env) (n : Node) : Recorded (Option Value) :=
  if isEvaluated n then do
    let _ ← eval call env n
    return none
  else do
    change call env n
    return none

def given (call : Calls) (env : Env) : Node → Recorded (Option Value)
  | .giveBack e => do return some (← eval call env e)
  | .giveBackNothing => return some .unset
  | .assign target source => do
    assignTo call env target source
    return none
  | n => simply call env n

def givenAll (call : Calls) (env : Env) : List Node → Recorded (Option Value)
  | [] => return none
  | n :: ns => do
    match ← given call env n with
    | none => givenAll call env ns
    | some x => return some x

variable {fuel : Nat} {v : Variable}

theorem exec_of_copyable (h : copyable entity n) :
    exec call fuel env n = (do return (leaving (← given call env n), env)) := by
  cases n with
  | assign | giveBack => simp only [exec, given, bind_assoc, pure_bind, leaving]
  | giveBackNothing => simp only [exec, given, pure_bind, leaving]
  | varDecl | funDecl | classDecl | ifElse | whileLoop | forLoop | switch | chop | next => cases h
  | binary _ op =>
    cases op with
    | addAssign | subAssign => 
      simp only [exec, given, simply, isEvaluated, Bool.false_eq_true, if_false, bind_assoc, pure_bind, leaving]
    | _ => simp only [exec, given, simply, isEvaluated, if_true, bind_assoc, pure_bind, leaving]
  | unary op =>
    cases op with
    | increment | decrement => 
      simp only [exec, given, simply, isEvaluated, Bool.false_eq_true, if_false, bind_assoc, pure_bind, leaving]
    | _ => simp only [exec, given, simply, isEvaluated, if_true, bind_assoc, pure_bind, leaving]
  | _ => simp only [exec, given, simply, isEvaluated, if_true, bind_assoc, pure_bind, leaving]

theorem execAll_of_copyable (h : ∀ n ∈ ns, copyable entity n) :
    execAll call fuel env ns = (do return (leaving (← givenAll call env ns), env)) := by
  induction ns with
  | nil => simp only [execAll, givenAll, pure_bind, leaving]
  | cons n ns ih =>
    obtain ⟨hn, hns⟩ := List.forall_mem_cons.mp h
    simp only [execAll, givenAll, exec_of_copyable hn, bind_assoc, pure_bind]
    refine congrArg _ (funext fun x => ?_)
    cases x with
    | none => exact ih hns
    | some x => rfl

section Copies

variable {n : Node}

theorem moves_addressOf_cons (henv : Within k env) {x : Int} (hne : x ≠ id) :
    Moves a (.var (.int value)) k (addressOf env x) (addressOf ((id, a) :: moved a env) x) := by
  rw [addressOf_cons_ne hne]
  exact moves_addressOf henv x

theorem commutes_none [Located α] {m m' : Recorded α} (h : Commutes a c k m m') :
    Commutes a c k (do let _ ← m; return none : Recorded (Option Value)) (do let _ ← m'; return none) :=
  h.bind fun _ _ => commutes_pure (x := (none : Option Value)) within_none

theorem commutes_some {m m' : Recorded Value} (h : Commutes a c k m m') :
    Commutes a c k (do return some (← m)) (do return some (← m')) :=
  h.bind fun {_ x} _ hx => commutes_pure (x := some x) fun _ hy => Option.some.inj hy ▸ hx

theorem isEvaluated_put (n : Node) : isEvaluated (put id value n) = isEvaluated n := by
  cases n with
  | var w =>
    unfold put
    split <;> rfl
  | binary _ op => cases op <;> rfl
  | unary op => cases op <;> rfl
  | _ => rfl

variable (hcall : Respecting a (.var (.int value)) call) (hown : isLibrary v.id = false) (henv : Within k env)

include hcall hown henv

theorem commutes_put_assignTo {target source : Node}
    (htarget : isLoopVariable (some v) target = false) (hlacks : (Node.assign target source).LacksFunction v.id) :
    Commutes a (.var (.int value)) k (assignTo call env (put v.id value target) (put v.id value source))
      (assignTo call ((v.id, a) :: moved a env) target source) := by
  have hput (c : Node) (hc : c.LacksFunction v.id) := commutes_put hcall hown henv c hc
  have htargetLacks := hlacks.children target (.head _)
  have hsource := hput source (hlacks.children source (.tail _ (.head _)))
  cases target with
  | var w =>
    obtain ⟨hne, hw⟩ := put_of_not_isLoopVariable value htarget
    rw [hw]
    exact commutes_assignTo_var (moves_addressOf_cons henv hne) hsource
  | member array index =>
    rw [put]
    exact commutes_assignTo_member index (hput array (htargetLacks.children array (.head _))) hsource
  | property map key =>
    rw [put]
    exact commutes_assignTo_property (hput map (htargetLacks.children map (.head _)))
      (hput key (htargetLacks.children key (.tail _ (.head _)))) hsource
  | _ => exact commutes_halt _

theorem commutes_put_change (hn : isEvaluated n = false)
    (hcopy : copyable (some v) n) (hlacks : n.LacksFunction v.id) :
    Commutes a (.var (.int value)) k (change call env (put v.id value n))
      (change call ((v.id, a) :: moved a env) n) := by
  cases n with
  | binary left op right =>
    have hop : op = .addAssign ∨ op = .subAssign := by
      cases op <;> first | exact .inl rfl | exact .inr rfl | cases hn
    cases left with
    | var w =>
      have htarget : isLoopVariable (some v) (.var w) = false := by
        rcases hop with rfl | rfl <;> simpa [copyable] using hcopy
      obtain ⟨hne, hw⟩ := put_of_not_isLoopVariable value htarget
      have hright := commutes_put hcall hown henv right (hlacks.children right (.tail _ (.head _)))
      rw [put, hw]
      exact commutes_change_compound hop (moves_addressOf_cons henv hne) hright
    | _ => exact commutes_halt _
  | unary op operand =>
    cases operand with
    | var w =>
      have htarget : isLoopVariable (some v) (.var w) = false := by
        cases op <;> first | simpa [copyable] using hcopy | cases hn
      obtain ⟨hne, hw⟩ := put_of_not_isLoopVariable value htarget
      rw [put, hw]
      exact commutes_change_unary (moves_addressOf_cons henv hne)
    | _ => exact commutes_halt _
  | var w => cases hn
  | _ => exact commutes_halt _

theorem commutes_simply (hcopy : copyable (some v) n) (hlacks : n.LacksFunction v.id) :
    Commutes a (.var (.int value)) k (simply call env (put v.id value n))
      (simply call ((v.id, a) :: moved a env) n) := by
  unfold simply
  rw [isEvaluated_put]
  cases hn : isEvaluated n with
  | true => exact commutes_none (commutes_put hcall hown henv n hlacks)
  | false => exact commutes_none (commutes_put_change hcall hown henv hn hcopy hlacks)

theorem commutes_given (hcopy : copyable (some v) n = true) (hlacks : n.LacksFunction v.id) :
    Commutes a (.var (.int value)) k (given call env (put v.id value n))
      (given call ((v.id, a) :: moved a env) n) := by
  have hsimply := commutes_simply hcall hown henv hcopy hlacks
  cases n with
  | giveBack e => exact commutes_some (commutes_put hcall hown henv e (hlacks.children e (.head _)))
  | giveBackNothing => exact commutes_pure (x := some Value.unset) fun _ hy => Option.some.inj hy ▸ trivial
  | assign target =>
    have htarget : isLoopVariable (some v) target = false := by simpa [copyable] using hcopy
    exact commutes_none (commutes_put_assignTo hcall hown henv htarget hlacks)
  | var w =>
    rw [put] at hsimply ⊢
    cases hid : w.id == v.id with
    | true =>
      rw [hid] at hsimply
      exact hsimply
    | false =>
      rw [hid] at hsimply
      exact hsimply
  | _ => exact hsimply

theorem commutes_givenAll (hcopy : ∀ n ∈ ns, copyable (some v) n = true) (hlacks : ∀ n ∈ ns, n.LacksFunction v.id) :
    Commutes a (.var (.int value)) k (givenAll call env (putAll v.id value ns))
      (givenAll call ((v.id, a) :: moved a env) ns) := by
  induction ns with
  | nil => exact commutes_pure (x := (none : Option Value)) within_none
  | cons n ns ih =>
    rw [List.forall_mem_cons] at hcopy hlacks
    rw [putAll, givenAll, givenAll]
    refine (commutes_given hcall hown henv hcopy.1 hlacks.1).bind fun {_ x} hle hx => ?_
    cases x with
    | none => exact (ih hcopy.2 hlacks.2).mono hle
    | some x => exact commutes_pure (x := some x) hx

end Copies

/-! ### Rounds -/

section Counter

variable {r : Record}
variable {op : BinaryOp} {bound d : Int}
variable {count : Int}

theorem cell_of_counter (ha : a ≤ r.size) : (r.moved a c).state.memory[a]? = some c :=
  getElem?_moved_self ha

theorem holds_of_counter {left : Node} {type : Ty} {b : Bool}
    (hown : isLibrary v.id = false) (hleft : isLoopVariable (some v) left)
    (hop : isLogic op = false) (hcell : r.state.memory[a]? = some (.var (.int value)))
    (h : operate op (.int value) (.int bound) = some (.bool b)) :
    holds call ((v.id, a) :: env) (.binary left op (.intLit bound) type) r = (.ok b, r) := by
  obtain ⟨w, rfl, hid⟩ := var_of_isLoopVariable hleft
  have hvar : eval call ((v.id, a) :: env) (.var w) r = (.ok (.int value), r) := by
    rw [← hid, eval_var_cons_self (hid ▸ hown)]
    exact keep_of_ok (readVar_of_cell hcell)
  have happlied : applied op (.int value) (.int bound) r = (.ok (.bool b), r) := by
    unfold applied
    rw [h]
    rfl
  have heval : eval call ((v.id, a) :: env) (.binary (.var w) op (.intLit bound) type) r = (.ok (.bool b), r) := by
    rw [eval_strict hop, bind_of_ok hvar]
    exact happlied
  exact bind_of_ok heval

theorem writeVar_of_cell {x y : Value} (h : s.memory[a]? = some (.var x)) :
    writeVar a y s = .ok ((), { s with memory := s.memory.set a (.var y) }) := by
  have hcell : cellAt a s = .ok (.var x, s) := by
    unfold cellAt
    rw [h]
  exact Semantics.bind_of_ok hcell

theorem change_of_counter (hown : isLibrary v.id = false) (hstep : stepOf? (some v) step = some d)
    (hcell : r.state.memory[a]? = some (.var (.int value))) :
    change call ((v.id, a) :: env) step r =
      (.ok (), { r with state := { r.state with memory := r.state.memory.set a (.var (.int (value + d))) } }) := by
  have hread := readVar_of_cell hcell
  have hwrite := writeVar_of_cell (y := .int (value + d)) hcell
  have haddress : keep (addressOf ((v.id, a) :: env) v.id) r = (.ok a, r) := by
    rw [addressOf_cons_self hown]
    rfl
  unfold stepOf? at hstep
  split at hstep
  · next op operand leading type =>
    split at hstep
    · next hvar =>
      obtain ⟨w, rfl, hid⟩ := var_of_isLoopVariable hvar
      refine keep_of_ok ?_
      rw [Semantics.change, hid, addressOf_cons_self hown, pure_bind, Semantics.bind_of_ok hread]
      split at hstep <;> cases hstep <;> exact hwrite
    · cases hstep
  · next left op type =>
    split at hstep
    · next hvar =>
      obtain ⟨w, rfl, hid⟩ := var_of_isLoopVariable hvar
      split at hstep <;> cases hstep
      all_goals
        rw [change, hid, bind_of_ok haddress, bind_of_ok (keep_of_ok hread)]
        exact keep_of_ok hwrite
    · cases hstep
  · cases hstep

theorem operate_counter (h : countOf? d op value bound = some count) :
    operate op (.int value) (.int bound) = some (.bool (decide (0 < count))) := by
  have hcompares : ∃ b, operate op (.int value) (.int bound) = some (.bool b) := by
    cases op <;> first | exact ⟨_, rfl⟩ | cases h
  obtain ⟨b, hb⟩ := hcompares
  rw [hb, show b = decide (0 < count) from Bool.eq_iff_iff.mpr ((counts h hb).trans decide_eq_true_iff.symm)]

theorem countOf?_add_mul (h : countOf? d op value bound = some count) (rounds : Nat) :
    countOf? d op (value + rounds * d) bound = some (count - rounds) := by
  induction rounds with
  | zero => simpa using h
  | succ rounds ih =>
    have hnext := countOf?_step ih
    rwa [show value + rounds * d + d = value + (rounds + 1 : Nat) * d by push_cast; ring,
      show count - rounds - 1 = count - (rounds + 1 : Nat) by push_cast; ring] at hnext

theorem moved_set_self {value' : Int} (ha : a ≤ r.size) : { r.moved a (.var (.int value)) with
      state :=
        { (r.moved a (.var (.int value))).state with
          memory := (r.moved a (.var (.int value))).state.memory.set a (.var (.int value')) } } =
      r.moved a (.var (.int value')) := by
  have ha : a ≤ (moved a r.state.memory).length := ha.trans_eq (List.length_map _).symm
  unfold Record.moved State.moved
  dsimp only
  rw [inserted_set_self ha]

end Counter

/-- The bodies of the rounds of a loop, with the values of its variable put in. -/
def rounds (id : Int) (body : List Node) (values : List Int) : List Node :=
  values.flatMap fun value => putAll id value body

theorem givenAll_append (ns ns' : List Node) : givenAll call env (ns ++ ns') = (do
      match ← givenAll call env ns with
      | none => givenAll call env ns'
      | some x => return some x) := by
  induction ns with
  | nil => simp only [List.nil_append, givenAll, pure_bind]
  | cons n ns ih =>
    simp only [List.cons_append, givenAll, ih, bind_assoc]
    refine congrArg _ (funext fun x => ?_)
    cases x with
    | none => rfl
    | some x => simp only [pure_bind]

theorem CommutesTo.grows [Located α] {m n : Nat} {end₁ end₂ : Except Halt α × Record}
    (h : CommutesTo a c n end₁ end₂) (hle : m ≤ n) : CommutesTo a c m end₁ end₂ := by
  cases h with
  | ok hgrows hr hx => exact .ok (hle.trans hgrows) hr hx
  | error hgrows hr => exact .error (hle.trans hgrows) hr

section Loop

variable {left step : Node} {op : BinaryOp} {bound d : Int} {body : List Node}

/-- A loop runs like the bodies of its rounds. By induction on the fuel, which the rounds that are left do
not exhaust. The cell of the variable has the value of the round. -/
theorem loop_commutes (hcall : ∀ a c, Respecting a c call) (hown : isLibrary v.id = false)
    (hleft : isLoopVariable (some v) left = true) (hstep : stepOf? (some v) step = some d)
    (hcopy : ∀ n ∈ body, copyable (some v) n = true) (hlacks : ∀ n ∈ body, n.LacksFunction v.id)
    (type : Ty) (turns : Nat) :
    ∀ {value count : Int} {r : Record}, countOf? d op value bound = some count → count.toNat < turns →
      a ≤ r.size → Within r.size env → r.Closed →
      ∃ last, CommutesTo a (.var (.int last)) r.size
        ((leaving <$> givenAll call env (rounds v.id body (Iterations.values ⟨value, d, count.toNat⟩))) r)
        (loop (holds call ((v.id, a) :: moved a env) (.binary left op (.intLit bound) type))
          (leaving <$> givenAll call ((v.id, a) :: moved a env) body)
          (change call ((v.id, a) :: moved a env) step) turns (r.moved a (.var (.int value)))) := by
  induction turns with
  | zero =>
    intro value count r _ hturns
    exact absurd hturns (Nat.not_lt_zero _)
  | succ turns ih =>
    intro value count r hcount hturns ha henv hr
    have hholds : holds call ((v.id, a) :: moved a env) (.binary left op (.intLit bound) type)
        (r.moved a (.var (.int value))) = (.ok (decide (0 < count)), r.moved a (.var (.int value))) :=
      holds_of_counter hown hleft (isLogic_of_countOf? hcount) (cell_of_counter ha) (operate_counter hcount)
    rw [loop, bind_of_ok hholds]
    by_cases hpositive : 0 < count
    · rw [decide_eq_true hpositive, if_pos rfl, values_step hpositive, rounds, List.flatMap_cons, givenAll_append,
        map_eq_pure_bind, map_eq_pure_bind, bind_assoc, bind_assoc]
      have hbody := commutes_givenAll (hcall a (.var (.int value))) hown henv hcopy hlacks r ha le_rfl hr
      generalize hend : givenAll call env (putAll v.id value body) r = end₁,
        hend' : givenAll call ((v.id, a) :: moved a env) body (r.moved a (.var (.int value))) = end₂ at hbody
      cases hbody with
      | error hgrows hr' =>
        rw [bind_of_error hend, bind_of_error hend']
        exact ⟨value, .error hgrows hr'⟩
      | @ok x r' hgrows hr' hx =>
        rw [bind_of_ok hend, bind_of_ok hend']
        cases x with
        | some x => exact ⟨value, .ok (x := Flow.back x) hgrows hr' (hx x rfl)⟩
        | none =>
          have hchange : change call ((v.id, a) :: moved a env) step (r'.moved a (.var (.int value))) =
              (.ok (), r'.moved a (.var (.int (value + d)))) := by
            rw [change_of_counter hown hstep (cell_of_counter (ha.trans hgrows)), moved_set_self (ha.trans hgrows)]
          obtain ⟨last, hlast⟩ := ih (countOf?_step hcount) (by omega) (ha.trans hgrows)
            (Located.mono hgrows henv) hr'
          refine ⟨last, ?_⟩
          rw [map_eq_pure_bind] at hlast
          change CommutesTo _ _ _ _ ((do change call ((v.id, a) :: moved a env) step; _) _)
          rw [bind_of_ok hchange]
          exact hlast.grows hgrows
    · have hnone : count.toNat = 0 := by omega
      rw [decide_eq_false hpositive, hnone]
      exact ⟨value, .ok (x := Flow.onward) le_rfl hr trivial⟩

end Loop

def extended {α : Type} [Located α] (a : Nat) (c : Cell) (ending : Except Halt α × Record) :
    Except Halt α × Record :=
  (ending.1.map (moved a), ending.2.moved a c)

theorem allocate_of_closed (hr : r.Closed) (x : Value) :
    keep (allocate (.var x)) r = (.ok r.size, r.moved r.size (.var x)) := by
  have hstate : moved r.size r.state.memory = r.state.memory := moved_eq hr.state
  have hcalls : moved r.size r.calls = r.calls := moved_eq hr.calls
  rw [keep_of_ok (x := r.size) rfl]
  unfold Record.moved State.moved
  rw [hstate, hcalls, show inserted r.size (.var x) r.state.memory = r.state.memory ++ [.var x] from inserted_length]

theorem isLoopVariable_none (n : Node) : isLoopVariable none n = false := by
  cases n <;> rfl

theorem copyable_put (h : copyable (some v) n) : copyable none (put id value n) := by
  cases n with
  | var w =>
    unfold put
    split <;> rfl
  | assign => simp only [put, copyable, isLoopVariable_none, Bool.not_false]
  | binary _ op => cases op <;> simp only [put, copyable, isLoopVariable_none, Bool.not_false]
  | unary op => cases op <;> simp only [put, copyable, isLoopVariable_none, Bool.not_false]
  | _ => first | rfl | cases h

theorem copyable_rounds {body : List Node} (h : ∀ n ∈ body, copyable (some v) n) (values : List Int) :
    ∀ n ∈ rounds id body values, copyable none n := by
  intro n hn
  obtain ⟨value, -, hn⟩ := List.mem_flatMap.mp hn
  rw [putAll_eq_map] at hn
  obtain ⟨m, hm, rfl⟩ := List.mem_map.mp hn
  exact copyable_put (h m hm)

theorem execBlock_eq (body : Option (List Node)) :
    execBlock call fuel env body = execAll call fuel env (body.getD []) := by
  cases body <;> rfl

/-- A loop with known bounds comes to the end of the bodies of its rounds, apart from the cell of its
variable. -/
theorem exec_counting {name : String} {init condition : Node} {body : Option (List Node)}
    {i : Iterations} (hcall : ∀ a c, Respecting a c call) (hown : isLibrary v.id = false)
    (hi : iterations? (some v) init condition step = some i)
    (hcopy : ∀ n ∈ body.getD [], copyable (some v) n)
    (hlacks : ∀ n ∈ body.getD [], n.LacksFunction v.id) (hfuel : i.count < fuel)
    (henv : Within r.size env) (hr : r.Closed) :
    ∃ last, exec call fuel env (.forLoop name init condition step body (some v)) r =
      extended r.size (.var (.int last)) (execAll call fuel env (rounds v.id (body.getD []) i.values) r) := by
  obtain ⟨start, left, op, bound, type, d, count, rfl, rfl, hleft, hstep, hcount, rfl⟩ := of_iterations? hi
  obtain ⟨last, hlast⟩ := loop_commutes (a := r.size) hcall hown hleft hstep hcopy hlacks type fuel hcount hfuel
    le_rfl henv hr
  have henv' : moved r.size env = env := moved_eq henv
  have hbody : Prod.fst <$> execBlock call fuel ((v.id, r.size) :: env) body =
      leaving <$> givenAll call ((v.id, r.size) :: env) (body.getD []) := by
    rw [execBlock_eq, execAll_of_copyable hcopy, map_eq_pure_bind, map_eq_pure_bind]
    simp only [bind_assoc, pure_bind]
  have hrounds : execAll call fuel env (rounds v.id (body.getD []) (Iterations.values ⟨start, d, count.toNat⟩)) =
      (do return (← leaving <$> givenAll call env
        (rounds v.id (body.getD []) (Iterations.values ⟨start, d, count.toNat⟩)), env)) := by
    rw [execAll_of_copyable (copyable_rounds hcopy _), map_eq_pure_bind]
    simp only [bind_assoc, pure_bind]
  have hinit : eval call env (.intLit start) r = (.ok (.int start), r) := rfl
  refine ⟨last, ?_⟩
  rw [henv'] at hlast
  rw [hrounds, exec, bind_of_ok hinit, bind_of_ok (allocate_of_closed hr _)]
  rw [hbody]
  generalize (leaving <$> givenAll call env _) = copies at hlast ⊢
  generalize hend : copies r = end₁, hend' : loop _ _ _ fuel (r.moved r.size _) = end₂ at hlast
  cases hlast with
  | error =>
    rw [bind_of_error hend, bind_of_error hend']
    rfl
  | @ok flow r' hgrows hr' hx =>
    rw [bind_of_ok hend, bind_of_ok hend']
    change (Except.ok (moved r.size flow, env), _) = (Except.ok (moved r.size flow, moved r.size env), _)
    rw [henv']
    rfl

end Recorded

end LemonScript
