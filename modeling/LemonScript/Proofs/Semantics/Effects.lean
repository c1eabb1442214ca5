import LemonScript.Proofs.Semantics.Record
import LemonScript.Proofs.Semantics.Value
import LemonScript.Typing.Analysis
/-!
# Effects of simplified expressions

Most rewrites keep every operand that is evaluated. The laws by which one factor decides a result do not:
they drop the other operand, with the calls in it and the arithmetic that fails in it. Where no such
operand is dropped, a simplified expression makes the calls of the expression and fails where it fails.
Only the check that a value is there at all may be dropped.
-/

namespace LemonScript

open Semantics Simplify

/-! ### Operands that are dropped -/

variable {n : Node}

namespace Simplify

/-- Whether arithmetic with a right operand never fails, whatever integer is on the left. -/
def isSafe (op : BinaryOp) (right : Node) : Bool :=
  match op, right with
  | .div, .intLit n | .mod, .intLit n => n != 0
  | .pow, .intLit n => decide (0 ≤ n)
  | .div, _ | .mod, _ | .pow, _ => false
  | _, _ => true

/-- Whether an expression only looks at values: it calls nothing, puts nothing into memory, and its
arithmetic never fails. -/
def isInert : Node → Bool
  | .intLit _ | .stringLit _ | .boolLit .. | .var _ | .fn _ => true
  | .binary left op right _ => isSafe op right && (isInert left && isInert right)
  | .unary _ operand _ _ => isInert operand
  | .member array _ _ => isInert array
  | .property map key _ => isInert map && isInert key
  | _ => false

/-- Whether an effect may be lost with an operand: `0 * e`, `e * 0` and `e ^ 0` lose those of `e`, and `0 / e`
and `1 ^ e` lose their own failure too. -/
def drops (left : Node) (op : BinaryOp) (right : Node) : Bool :=
  match op with
  | .mul => isZero left && !isInert right || isZero right && !isInert left
  | .div => isZero left && !isNumber right
  | .pow => isOne left && !isNumber right || isZero right && !isInert left
  | _ => false

/-- Whether an operator loses no effect when its operands have been simplified. -/
def losesNothing : Node → Bool
  | .binary left op right _ => !drops (simpler left) op (simpler right)
  | _ => true

end Simplify

namespace Recorded

variable {α β : Type} {call : Calls} {depth : Nat} {env : Env}

/-! ### Runs that repeat others -/

/-- The run stopped with a record because a value is missing or not of the kind that is needed. -/
def Lacking (r : Record) (ending : Except Halt α × Record) : Prop :=
  ∃ reason, ending = (.error (.stop reason), r) ∧ reason ≠ .unfinished

variable {m m' : Recorded α} {f : α → Recorded β} {y : Value}

theorem lacking_bind {r r' : Record} (h : Lacking r' (m r)) : Lacking r' ((m >>= f) r) := by
  obtain ⟨reason, heq, hreason⟩ := h
  exact ⟨reason, bind_of_error heq, hreason⟩

/-- The first run is the second one, unless the second one stops because a value is missing. Then the first
one has made its calls, and may have gone on. -/
structure Repeats (m' m : Recorded α) : Prop where
  ends : ∀ r, m' r = m r ∨ ∃ r', Lacking r' (m r) ∧ r'.calls <+: (m' r).2.calls
  adds : Adds m'

theorem Repeats.refl (h : Adds m) : Repeats m m := ⟨fun _ => .inl rfl, h⟩

theorem Repeats.of_eq (h : Adds m) (heq : m' = m) : Repeats m' m := by
  rw [heq]
  exact .refl h

theorem Repeats.trans {m'' : Recorded α} (h : Repeats m'' m') (h' : Repeats m' m) :
    Repeats m'' m := by
  refine ⟨fun r => ?_, h.adds⟩
  rcases h'.ends r with heq | ⟨r', hlacking, hcalls⟩
  · exact heq ▸ h.ends r
  · refine .inr ⟨r', hlacking, ?_⟩
    rcases h.ends r with heq | ⟨r'', ⟨reason, heq, -⟩, hcalls'⟩
    · exact heq ▸ hcalls
    · rw [heq] at hcalls
      exact hcalls.trans hcalls'

theorem Repeats.bind {f' : α → Recorded β} (hm : Repeats m' m) (hf : ∀ x, Repeats (f' x) (f x)) :
    Repeats (m' >>= f') (m >>= f) := by
  refine ⟨fun r => ?_, hm.adds.bind fun x => (hf x).adds⟩
  rcases hm.ends r with heq | ⟨r', hlacking, hcalls⟩
  · generalize hend : m r = ending at heq
    obtain ⟨x, r'⟩ := ending
    cases x with
    | ok x =>
      rw [bind_of_ok heq, bind_of_ok hend]
      exact (hf x).ends r'
    | error => exact .inl ((bind_of_error heq).trans (bind_of_error hend).symm)
  · exact .inr ⟨r', lacking_bind hlacking, hcalls.trans (calls_bind (fun x => (hf x).adds) r)⟩

def Checks (f : α → Recorded α) : Prop := ∀ x r, f x r = (.ok x, r) ∨ Lacking r (f x r)

theorem Checks.repeats {f : α → Recorded α} (hf : Checks f) (hm : Adds m) :
    Repeats m (m >>= f) := by
  have hcheck (x : α) : Repeats (pure x) (f x) := by
    refine ⟨fun r => ?_, adds_pure x⟩
    rcases hf x r with heq | hlacking
    · exact .inl heq.symm
    · exact .inr ⟨r, hlacking, List.prefix_refl _⟩
  have hpure : Repeats (m >>= pure) (m >>= f) := (Repeats.refl hm).bind hcheck
  rwa [bind_pure] at hpure

/-- A run that changes nothing and whose arithmetic does not fail. -/
def Calm (m : Recorded α) : Prop := ∀ r, (∃ x, m r = (.ok x, r)) ∨ Lacking r (m r)

theorem calm_pure (x : α) : Calm (pure x) := fun _ => .inl ⟨x, rfl⟩

theorem Calm.bind (hm : Calm m) (hf : ∀ x, Calm (f x)) : Calm (m >>= f) := by
  intro r
  rcases hm r with ⟨x, hx⟩ | hlacking
  · rw [bind_of_ok hx]
    exact hf x r
  · exact .inr (lacking_bind hlacking)

theorem Calm.decided {y : β} (hm : Calm m) (hf : ∀ x r, f x r = (.ok y, r) ∨ Lacking r (f x r)) :
    Repeats (pure y) (m >>= f) := by
  refine ⟨fun r => ?_, adds_pure y⟩
  rcases hm r with ⟨x, hx⟩ | hlacking
  · rw [bind_of_ok hx]
    rcases hf x r with heq | hlacking
    · exact .inl heq.symm
    · exact .inr ⟨r, hlacking, List.prefix_refl _⟩
  · exact .inr ⟨r, lacking_bind hlacking, List.prefix_refl _⟩

/-! ### Operators -/

theorem lacking_fault (r : Record) : Lacking r ((.error (.stop .fault), r) : Except Halt α × Record) :=
  ⟨.fault, rfl, by decide⟩

def Safe (op : BinaryOp) (y : Value) : Prop := ∀ x, operate op x y = none → failure op x y = .stop .fault

theorem applied_of_safe {op : BinaryOp} (h : Safe op y) (x : Value) (r : Record) :
    (∃ v, operate op x y = some v ∧ applied op x y r = (.ok v, r)) ∨ Lacking r (applied op x y r) := by
  unfold applied
  cases hop : operate op x y with
  | some v => exact .inl ⟨v, rfl, rfl⟩
  | none =>
    dsimp only
    rw [h x hop]
    exact .inr (lacking_fault r)

def isTotal : BinaryOp → Bool
  | .div | .mod | .pow => false
  | _ => true

theorem safe_of_isTotal {op : BinaryOp} (h : isTotal op) (y : Value) : Safe op y := by
  intro x _
  cases x <;> cases y <;> first | rfl | (cases op <;> first | rfl | cases h)

theorem int_of_isSafe {op : BinaryOp} {right : Node} (h : isSafe op right) (htotal : isTotal op = false) :
    ∃ n, right = .intLit n := by
  cases op with
  | div | mod | pow =>
    cases right with
    | intLit n => exact ⟨n, rfl⟩
    | _ => cases h
  | _ => cases htotal

theorem safe_int {op : BinaryOp} {n : Int} (h : isSafe op (.intLit n)) : Safe op (.int n) := by
  intro x hx
  cases x with
  | int l =>
    cases op with
    | div | mod =>
      have hn : n ≠ 0 := by simpa [isSafe] using h
      simp [operate, onInts, hn] at hx
    | pow =>
      have hn : ¬ n < 0 := by simpa [isSafe] using h
      simp [operate, onInts, hn] at hx
    | _ => rfl
  | _ => rfl

theorem eval_literal {v : Value} (h : Literal n v) : eval call env n = pure v := by
  cases h <;> rfl

theorem adds_eval (n : Node) : Adds (eval (callAt depth) env n) := (tells_eval (tells_callAt depth) n).adds

/-- The evaluation of the first expression repeats that of the second one. -/
abbrev RepeatsIn (depth : Nat) (env : Env) (n' n : Node) : Prop :=
  Repeats (eval (callAt depth) env n') (eval (callAt depth) env n)

section Laws

variable {left right n : Node} {op : BinaryOp} {type : Ty}

theorem repeats_folded (hop : isLogic op = false) (h : Folded left op right n) :
    RepeatsIn depth env n (.binary left op right type) := by
  obtain ⟨x, y, v, hx, hy, hv, hoperate⟩ := h
  refine .of_eq (adds_eval _) ?_
  rw [eval_strict hop, eval_literal hx, eval_literal hy, eval_literal hv, pure_bind, pure_bind, applied, hoperate]

theorem repeats_right {x : Value} (hleft : Literal left x) (hop : isLogic op = false) (hsafe : ∀ y, Safe op y)
    (hvalue : ∀ {y v}, operate op x y = some v → v = y) :
    RepeatsIn depth env right (.binary left op right type) := by
  rw [RepeatsIn, eval_strict hop, eval_literal hleft, pure_bind]
  refine Checks.repeats (fun y r => ?_) (adds_eval _)
  rcases applied_of_safe (hsafe y) x r with ⟨v, hv, heq⟩ | hlacking
  · exact .inl (hvalue hv ▸ heq)
  · exact .inr hlacking

theorem repeats_left (hright : Literal right y) (hop : isLogic op = false) (hsafe : Safe op y)
    (hvalue : ∀ {x v}, operate op x y = some v → v = x) :
    RepeatsIn depth env left (.binary left op right type) := by
  simp only [RepeatsIn, eval_strict hop, eval_literal hright, pure_bind]
  refine Checks.repeats (fun x r => ?_) (adds_eval _)
  rcases applied_of_safe hsafe x r with ⟨v, hv, heq⟩ | hlacking
  · exact .inl (hvalue hv ▸ heq)
  · exact .inr hlacking

theorem repeats_negated (hleft : Literal left (.int 0)) {leading : Bool} {type' : Ty} :
    RepeatsIn depth env (.unary .neg right leading type') (.binary left .sub right type) := by
  rw [RepeatsIn, eval_strict rfl, eval_literal hleft, pure_bind, eval]
  refine (Repeats.refl (adds_eval _)).bind fun y => ⟨fun r => ?_, adds_keep _⟩
  cases y with
  | int n =>
    refine .inl ?_
    change (Except.ok (Value.int (-n)), r) = (Except.ok (Value.int (0 - n)), r)
    rw [Int.zero_sub]
  | _ => exact .inr ⟨r, lacking_fault r, List.prefix_refl _⟩

theorem repeats_decided_left {x z : Value} (hleft : Literal left x) (hn : Literal n z) (hop : isLogic op = false)
    (hcalm : Calm (eval (callAt depth) env right)) (hsafe : ∀ y, Safe op y) (hvalue : ∀ {y v}, operate op x y = some v → v = z) :
    RepeatsIn depth env n (.binary left op right type) := by
  rw [RepeatsIn, eval_strict hop, eval_literal hleft, pure_bind, eval_literal hn]
  refine hcalm.decided fun y r => ?_
  rcases applied_of_safe (hsafe y) x r with ⟨v, hv, heq⟩ | hlacking
  · exact .inl (hvalue hv ▸ heq)
  · exact .inr hlacking

theorem repeats_decided_right {z : Value} (hright : Literal right y) (hn : Literal n z)
    (hop : isLogic op = false) (hcalm : Calm (eval (callAt depth) env left)) (hsafe : Safe op y)
    (hvalue : ∀ {x v}, operate op x y = some v → v = z) :
    RepeatsIn depth env n (.binary left op right type) := by
  simp only [RepeatsIn, eval_strict hop, eval_literal hright, pure_bind, eval_literal hn]
  refine hcalm.decided fun x r => ?_
  rcases applied_of_safe hsafe x r with ⟨v, hv, heq⟩ | hlacking
  · exact .inl (hvalue hv ▸ heq)
  · exact .inr hlacking

end Laws

/-! ### Expressions that only look -/

variable {α : Type} {call : Calls} {depth : Nat} {env : Env} {left right n : Node} {op : BinaryOp} {type : Ty}

theorem calm_keep {m : Run α} (h : Looks m) : Calm (keep m) := by
  intro r
  rcases h r.state with ⟨x, hx⟩ | ⟨reason, hm, hreason⟩
  · exact .inl ⟨x, keep_of_ok hx⟩
  · exact .inr ⟨reason, keep_of_error hm, hreason⟩

theorem calm_applied (h : Safe op y) (x : Value) : Calm (applied op x y) := by
  intro r
  rcases applied_of_safe h x r with ⟨v, -, heq⟩ | hlacking
  · exact .inl ⟨v, heq⟩
  · exact .inr hlacking

theorem calm_holds (h : Calm (eval call env n)) : Calm (holds call env n) :=
  h.bind fun x => calm_keep (.truth x)

theorem calm_binary (hsafe : isSafe op right) (hleft : Calm (eval call env left))
    (hright : Calm (eval call env right)) : Calm (eval call env (.binary left op right type)) := by
  cases hop : isLogic op with
  | true =>
    rw [eval_logic hop]
    refine (calm_holds hleft).bind fun b => ?_
    split
    · exact (calm_holds hright).bind fun b => calm_pure _
    · exact calm_pure _
  | false =>
    rw [eval_strict hop]
    cases htotal : isTotal op with
    | true => exact hleft.bind fun x => hright.bind fun y => calm_applied (safe_of_isTotal htotal y) x
    | false =>
      obtain ⟨n, rfl⟩ := int_of_isSafe hsafe htotal
      exact hleft.bind fun x => calm_applied (safe_int hsafe) x

theorem calm_eval (h : isInert n) : Calm (eval call env n) := by
  induction n with
  | h n ih =>
  cases n with
  | binary left _ right =>
    simp only [isInert, Bool.and_eq_true] at h
    exact calm_binary h.1 (ih left (.head _) h.2.1) (ih right (.tail _ (.head _)) h.2.2)
  | unary _ operand =>
    rw [eval]
    exact (ih operand (.head _) h).bind fun x => calm_keep (.orFault _)
  | member array index =>
    cases index with
    | none => exact calm_keep (.stop (by decide))
    | some i =>
      rw [eval]
      exact (ih array (.head _) h).bind fun x => calm_keep (.elementOf x i)
  | property map key =>
    simp only [isInert, Bool.and_eq_true] at h
    rw [eval]
    exact (ih map (.head _) h.1).bind fun x => (ih key (.tail _ (.head _)) h.2).bind fun k => calm_keep (.entryOf x k)
  | var v =>
    refine calm_keep ?_
    rw [Semantics.eval]
    split
    · exact .pure _
    · exact (Looks.addressOf env v.id).bind fun a => .readVar a
  | fn f =>
    refine calm_keep ?_
    rw [Semantics.eval]
    split
    · exact .pure _
    · exact (Looks.addressOf env f.id).bind fun a => .functionAt a
  | intLit | stringLit | boolLit => exact calm_pure _
  | _ => cases h

/-! ### What simplification makes of an operator -/

theorem isInert_right_of_mul (h : drops left .mul right = false) (hzero : isZero left) :
    isInert right := by
  simpa [hzero] using (Bool.or_eq_false_iff.mp h).1

theorem isInert_left_of_mul (h : drops left .mul right = false) (hzero : isZero right) :
    isInert left := by
  simpa [hzero] using (Bool.or_eq_false_iff.mp h).2

theorem isInert_left_of_pow (h : drops left .pow right = false) (hzero : isZero right) :
    isInert left := by
  simpa [hzero] using (Bool.or_eq_false_iff.mp h).2

theorem holds_literal {u : Bool} (h : isBool u n) : holds (callAt depth) env n = pure u := by
  rw [holds, eval_literal (literal_of_isBool h), pure_bind]
  rfl

theorem repeats_unit_left (hop : isLogic op) (h : isBool (decides op) left) :
    RepeatsIn depth env right (.binary left op right type) := by
  rw [RepeatsIn, eval_logic hop, holds_literal h, pure_bind, if_pos rfl, holds, bind_assoc]
  refine Checks.repeats (fun y r => ?_) (adds_eval _)
  cases y with
  | bool b => exact .inl rfl
  | _ => exact .inr (lacking_fault r)

theorem repeats_unit_right (hop : isLogic op) (h : isBool (decides op) right) :
    RepeatsIn depth env left (.binary left op right type) := by
  rw [RepeatsIn, eval_logic hop, holds_literal h, holds, bind_assoc]
  refine Checks.repeats (fun x r => ?_) (adds_eval _)
  cases x with
  | bool b =>
    rw [show keep (truth (.bool b)) = pure b from rfl, pure_bind]
    split
    · next hb => exact .inl (hb ▸ rfl)
    · exact .inl rfl
  | _ => exact .inr (lacking_fault r)

/-- What an operator is simplified to repeats it, if nothing is lost with an operand. -/
theorem repeats_combine (hleft : isFloat left = false) (hright : isFloat right = false)
    (hdrops : drops left op right = false) :
    RepeatsIn depth env (combine left op right type) (.binary left op right type) := by
  have hl0 (h : isZero left) : Literal left (.int 0) := int_of_isZero h hleft ▸ .int 0
  have hl1 (h : isOne left) : Literal left (.int 1) := int_of_isOne h hleft ▸ .int 1
  have hr0 (h : isZero right) : Literal right (.int 0) := int_of_isZero h hright ▸ .int 0
  have hr1 (h : isOne right) : Literal right (.int 1) := int_of_isOne h hright ▸ .int 1
  have hlaw := law_combine left op right type
  generalize combine left op right type = n at hlaw ⊢
  cases hlaw with
  | unitLeft hop h => exact repeats_unit_left hop h
  | unitRight hop h => exact repeats_unit_right hop h
  | decided hop h =>
    refine .of_eq (adds_eval _) ?_
    rw [eval_logic hop, holds_literal h, eval_literal (literal_of_isBool h), pure_bind, if_neg (Bool.not_ne_self _)]
  | numbers hop h => exact repeats_folded hop (folded_foldedNumbers hleft hright h)
  | texts hop h => exact repeats_folded hop (folded_foldOther h)
  | zeroAdd h => exact repeats_right (hl0 h) rfl (safe_of_isTotal rfl) operate_zero_add
  | zeroSub h => exact repeats_negated (hl0 h)
  | oneMul h => exact repeats_right (hl1 h) rfl (safe_of_isTotal rfl) operate_one_mul
  | zeroMul h =>
    exact repeats_decided_left (hl0 h) (hl0 h) rfl (calm_eval (isInert_right_of_mul hdrops h))
      (safe_of_isTotal rfl) operate_zero_mul
  | zeroDiv h hnumber | onePow h hnumber => simp [drops, h, hnumber] at hdrops
  | addZero h => exact repeats_left (hr0 h) rfl (safe_of_isTotal rfl _) operate_add_zero
  | subZero h => exact repeats_left (hr0 h) rfl (safe_of_isTotal rfl _) operate_sub_zero
  | mulOne h => exact repeats_left (hr1 h) rfl (safe_of_isTotal rfl _) operate_mul_one
  | mulZero h =>
    exact repeats_decided_right (hr0 h) (hr0 h) rfl (calm_eval (isInert_left_of_mul hdrops h))
      (safe_of_isTotal rfl _) operate_mul_zero
  | divOne h => exact repeats_left (hr1 h) rfl (safe_int rfl) operate_div_one
  | powZero h =>
    have hresult : Literal (oneLike right) (.int 1) := by
      rw [int_of_isZero h hright]
      exact .int 1
    exact repeats_decided_right (hr0 h) hresult rfl (calm_eval (isInert_left_of_pow hdrops h)) (safe_int rfl)
      operate_pow_zero
  | kept => exact .refl (adds_eval _)

theorem repeats_combineUnary {op : UnaryOp} {leading : Bool} (hfloat : isFloat n = false) :
    RepeatsIn depth env (combineUnary op n leading type) (.unary op n leading type) := by
  unfold combineUnary
  split
  · exact .of_eq (adds_eval _) rfl
  · cases hfloat
  · exact .of_eq (adds_eval _) rfl
  · exact .refl (adds_eval _)

/-! ### Operands that repeat others -/

section Operands

variable {left' right' : Node} {type' : Ty}

theorem repeats_holds (h : RepeatsIn depth env left' left) :
    Repeats (holds (callAt depth) env left') (holds (callAt depth) env left) :=
  h.bind fun _ => .refl (adds_keep _)

theorem repeats_binary (op : BinaryOp) (hleft : RepeatsIn depth env left' left)
    (hright : RepeatsIn depth env right' right) :
    RepeatsIn depth env (.binary left' op right' type') (.binary left op right type) := by
  cases hop : isLogic op with
  | false =>
    rw [RepeatsIn, eval_strict hop, eval_strict hop]
    exact hleft.bind fun x => hright.bind fun y => .refl (tells_applied op x y).adds
  | true =>
    rw [RepeatsIn, eval_logic hop, eval_logic hop]
    refine (repeats_holds hleft).bind fun b => ?_
    split
    · exact (repeats_holds hright).bind fun b => .refl (adds_pure _)
    · exact .refl (adds_pure _)

theorem repeats_evalAll {g : Node → Node} {ns : List Node} (h : ∀ n ∈ ns, RepeatsIn depth env (g n) n) :
    Repeats (evalAll (callAt depth) env (ns.map g)) (evalAll (callAt depth) env ns) := by
  induction ns with
  | nil => exact .refl (adds_pure _)
  | cons n ns ih =>
    obtain ⟨hn, hns⟩ := List.forall_mem_cons.mp h
    rw [List.map_cons, evalAll, evalAll]
    exact hn.bind fun x => (ih hns).bind fun xs => .refl (adds_pure _)

theorem repeats_simplerOptional {ns : Option (List Node)} (h : ∀ n ∈ ns.getD [], RepeatsIn depth env (simpler n) n) :
    Repeats (evalOptional (callAt depth) env (simplerOptional ns)) (evalOptional (callAt depth) env ns) := by
  rw [evalOptional_eq, evalOptional_eq, getD_simplerOptional]
  exact repeats_evalAll h

theorem repeats_simplerEntries {es : List (Entry Node)}
    (h : ∀ n ∈ es.flatMap Entry.children, RepeatsIn depth env (simpler n) n) :
    Repeats (evalEntries (callAt depth) env (simplerEntries es)) (evalEntries (callAt depth) env es) := by
  induction es with
  | nil => exact .refl (adds_pure _)
  | cons e es ih =>
    obtain ⟨he, hes⟩ := List.forall_mem_append.mp h
    rw [simplerEntries, evalEntries, evalEntries]
    exact (he e.key (.head _)).bind fun k => (he e.value (.tail _ (.head _))).bind fun x =>
      (ih hes).bind fun es => .refl (adds_pure _)

end Operands

end Recorded

/-! ### Expressions -/

namespace Simplify

theorem isFloat_simpler (h : n.every Node.notFloat) : isFloat (simpler n) = false := by
  induction n with
  | h n ih =>
  obtain ⟨hn, hchildren⟩ := Node.every_iff.mp h
  replace ih := fun c hc => ih c hc (hchildren c hc)
  cases n with
  | floatLit x => cases hn
  | binary left op right type =>
    have hleft := ih left (.head _)
    have hright := ih right (.tail _ (.head _))
    have hcombine : isFloat (combine (simpler left) op (simpler right) type) = false := by
      have hcombined := combined_combine (simpler left) op (simpler right) type
      generalize combine (simpler left) op (simpler right) type = m at hcombined ⊢
      cases hcombined with
      | float x hfloat =>
        simp [hleft, hright] at hfloat
      | left => exact hleft
      | right => exact hright
      | _ => rfl
    cases op <;> first | exact hcombine | rfl
  | unary op operand leading type =>
    have hoperand := ih operand (.head _)
    rw [simpler]
    have hcombined := combinedUnary_combineUnary op (simpler operand) leading type
    generalize combineUnary op (simpler operand) leading type = m at hcombined ⊢
    cases hcombined with
    | float x hfloat =>
      rw [hoperand] at hfloat
      cases hfloat
    | _ => rfl
  | _ => rfl

end Simplify

namespace Recorded

variable {depth : Nat} {env : Env}

/-- A simplified expression repeats the expression. -/
theorem repeats_simpler (hfloat : n.every Node.notFloat) (hlossless : n.every losesNothing) :
    RepeatsIn depth env (simpler n) n := by
  induction n with
  | h n ih =>
  have hfloats := (Node.every_iff.mp hfloat).2
  obtain ⟨hn, hnothing⟩ := Node.every_iff.mp hlossless
  replace ih := fun c hc => ih c hc (hfloats c hc) (hnothing c hc)
  cases n with
  | binary left op right type =>
    have hdrops : drops (simpler left) op (simpler right) = false := by simpa [losesNothing] using hn
    have hleft := ih left (.head _)
    have hright := ih right (.tail _ (.head _))
    have hcombine : RepeatsIn depth env (combine (simpler left) op (simpler right) type) (.binary left op right type) :=
      (repeats_combine (isFloat_simpler (hfloats left (.head _))) (isFloat_simpler (hfloats right (.tail _ (.head _))))
        hdrops).trans (repeats_binary op hleft hright)
    cases op with
    | addAssign | subAssign => exact repeats_binary _ (.refl (adds_eval _)) hright
    | _ => exact hcombine
  | unary _ operand =>
    refine (repeats_combineUnary (isFloat_simpler (hfloats operand (.head _)))).trans ?_
    rw [eval, eval]
    exact (ih operand (.head _)).bind fun x => .refl (adds_keep _)
  | call =>
    obtain ⟨hcallee, hargs⟩ := List.forall_mem_cons.mp ih
    rw [RepeatsIn, simpler, eval, eval]
    exact hcallee.bind fun f => (repeats_simplerOptional hargs).bind fun xs =>
      .refl ((tells_callAt depth f xs).note f xs).adds
  | arrayLit =>
    rw [RepeatsIn, simpler, eval, eval]
    exact (repeats_simplerOptional ih).bind fun xs => .refl ((adds_keep _).bind fun _ => adds_pure _)
  | mapLit =>
    rw [RepeatsIn, simpler, eval, eval]
    exact (repeats_simplerEntries ih).bind fun es => .refl ((adds_keep _).bind fun _ => adds_pure _)
  | member array index =>
    cases index with
    | none => exact .refl (adds_eval _)
    | some i =>
      rw [RepeatsIn, simpler, eval, eval]
      exact (ih array (.head _)).bind fun x => .refl (adds_keep _)
  | property map key =>
    rw [RepeatsIn, simpler, eval, eval]
    exact (ih map (.head _)).bind fun x => (ih key (.tail _ (.head _))).bind fun k => .refl (adds_keep _)
  | _ => exact .refl (adds_eval _)

end Recorded

/-- Simplification keeps effects where it drops no operand that has one. A float-free expression whose names
are declared, as those of an analyzed program are, can be simplified. If none of its operators drops an
operand with a call or with arithmetic that may fail, then from every state the simplified expression
comes to the end of the expression, with the same calls on record and the same failure, if there is one.
The only other case is that the expression itself stops because a value is missing. Then the simplified
expression has made the calls up to there. -/
theorem Simplify.expression_keeps_effects {Γ : Site} {e : Node} (h : Scoped.Expression Γ e)
    (hfloat : e.every Node.notFloat = true) (hlossless : e.every losesNothing = true) :
    ∃ e', expression e = .ok e' ∧ ∀ (depth : Nat) (env : Env) (r : Record),
      Recorded.eval (Recorded.callAt depth) env e' r = Recorded.eval (Recorded.callAt depth) env e r ∨
        ∃ r', Recorded.Lacking r' (Recorded.eval (Recorded.callAt depth) env e r) ∧
          r'.calls <+: (Recorded.eval (Recorded.callAt depth) env e' r).2.calls :=
  ⟨simpler e, expression_eq h, fun _ _ r => (Recorded.repeats_simpler hfloat hlossless).ends r⟩

/-! ### A variable and a function

A program declares a variable that is zero and a function that gives back one. -/

namespace ZeroAndOne

def zero : Variable := ⟨Library.firstUserId, "zero", false, .int⟩

def one : Function := ⟨Library.firstUserId + 1, "one", some ⟨[], .int⟩⟩

def callOne : Node := .call (.fn one) none .int

/-- `(one() / zero) * 1 + (0 - one())`, in which nothing is dropped but literals. -/
def ratio : Node :=
  .binary (.binary (.binary callOne .div (.var zero) .int) .mul (.intLit 1) .int) .add
    (.binary (.intLit 0) .sub callOne .int) .int

def simpleRatio : Node :=
  .binary (.binary callOne .div (.var zero) .int) .add (.unary .neg callOne true .int) .int

theorem expression_keeps_effects_ratio : expression ratio = .ok simpleRatio ∧
    ∀ (depth : Nat) (env : Env) (r : Record),
      Recorded.eval (Recorded.callAt depth) env simpleRatio r = Recorded.eval (Recorded.callAt depth) env ratio r ∨
        ∃ r', Recorded.Lacking r' (Recorded.eval (Recorded.callAt depth) env ratio r) ∧
          r'.calls <+: (Recorded.eval (Recorded.callAt depth) env simpleRatio r).2.calls := by
  have hscoped : Scoped.Expression ⟨{zero.id}, {one.id}, False, False⟩ ratio :=
    ⟨trivial, ⟨trivial, ⟨trivial, ⟨⟨.inr rfl, rfl⟩, trivial⟩, .inr rfl⟩, trivial⟩,
      trivial, trivial, ⟨.inr rfl, rfl⟩, trivial⟩
  have hratio : expression ratio = .ok simpleRatio := rfl
  obtain ⟨e, he, heffects⟩ := expression_keeps_effects hscoped rfl rfl
  obtain rfl := Except.ok.inj (hratio.symm.trans he)
  exact ⟨hratio, heffects⟩

def source : Program :=
  ⟨[], some [.varDecl (.named "slice") "zero" (.intLit 0) false false none,
    .funDecl "one" false (.named "slice") none (some [.giveBack (.intLit 1)]) none,
    .varDecl (.named "slice") "x" (.binary (.intLit 0) .div (.ident "zero") .nothing) false false none,
    .varDecl (.named "slice") "y" (.binary (.intLit 0) .mul (.call (.ident "one") none .nothing) .nothing)
      false false none]⟩

def declarations : List Node :=
  [.varDecl .int "zero" (.intLit 0) false false (some zero),
    .funDecl "one" false .int (some []) (some [.giveBack (.intLit 1)]) (some one)]

def quotient : Node := .binary (.intLit 0) .div (.var zero) .int

def product : Node := .binary (.intLit 0) .mul callOne .int

def analyzed : Program :=
  ⟨[], some (declarations ++
    [.varDecl .int "x" quotient false false (some ⟨Library.firstUserId + 2, "x", false, .int⟩),
      .varDecl .int "y" product false false (some ⟨Library.firstUserId + 3, "y", false, .int⟩)])⟩

def env : Env := [(one.id, 1), (zero.id, 0)]

def record : Record := ⟨⟨[.var (.int 0), .closure ⟨one.id, [], some [.giveBack (.intLit 1)]⟩ env], []⟩, []⟩

/-- `0 / e` is simplified though `e` is zero, and `0 * e` though `e` is a call. The failure and the call are
lost. -/
theorem expression_drops_effects : source.analyze = .ok analyzed ∧
    Recorded.execAll (Recorded.callAt 1) 1 [] declarations ⟨⟨[], []⟩, []⟩ = (.ok (.onward, env), record) ∧
    expression quotient = .ok (.intLit 0) ∧ expression product = .ok (.intLit 0) ∧
    Recorded.eval (Recorded.callAt 1) env (.intLit 0) record = (.ok (.int 0), record) ∧
    Recorded.eval (Recorded.callAt 1) env quotient record = (.error .arithmetic, record) ∧
    Recorded.eval (Recorded.callAt 1) env product record =
      (.ok (.int 0), { record with calls := [(.ref 1, [])] }) :=
  ⟨rfl, rfl, rfl, rfl, rfl, rfl, rfl⟩

end ZeroAndOne

end LemonScript
