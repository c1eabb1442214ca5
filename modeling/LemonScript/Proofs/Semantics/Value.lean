import LemonScript.Proofs.Semantics.Congruence
import LemonScript.Proofs.Simplify.Tame
/-!
# Simplified expressions keep their value

A folded literal is the value of its operator. An operand that is dropped decides nothing: either it
is not evaluated, or its evaluation changes nothing that the rest of the program can see.
-/

namespace LemonScript

namespace Semantics

open Simplify

/-! ### Evaluation without effect -/

/-- A step that only looks at the state. -/
def Looks {α : Type} (m : Run α) : Prop :=
  ∀ s, (∃ x, m s = .ok (x, s)) ∨ ∃ reason, m s = .error reason ∧ reason ≠ .unfinished

variable {ρ : Links} {n : Node} {v : Value} {op : BinaryOp} {l r a b : Int}
variable {σ : Setting} {left right : Node}

namespace Looks

variable {α β : Type} {m : Run α}

theorem pure (x : α) : Looks (pure x : Run α) := fun _ => .inl ⟨x, rfl⟩

theorem stop {reason : Stop} (h : reason ≠ .unfinished) : Looks (Semantics.stop reason : Run α) :=
  fun _ => .inr ⟨reason, rfl, h⟩

theorem bind {f : α → Run β} (h : Looks m) (hf : ∀ x, Looks (f x)) : Looks (m >>= f) := by
  intro s
  rcases h s with ⟨x, hx⟩ | ⟨reason, hm, hreason⟩
  · rw [bind_of_ok hx]
    exact hf x s
  · refine .inr ⟨reason, ?_, hreason⟩
    change Except.bind (m s) _ = _
    rw [hm]
    rfl

theorem cellAt (a : Address) : Looks (cellAt a) := by
  intro s
  unfold Semantics.cellAt
  cases s.memory[a]? with
  | none => exact .inr ⟨.stuck, rfl, by decide⟩
  | some c => exact .inl ⟨c, rfl⟩

theorem addressOf (env : Env) (x : Int) : Looks (addressOf env x) := by
  unfold Semantics.addressOf
  split
  · exact stop (by decide)
  · split
    · exact pure _
    · exact stop (by decide)

theorem readVar (a : Address) : Looks (readVar a) :=
  (cellAt a).bind fun c => by
    cases c with
    | var v => exact pure v
    | _ => exact stop (by decide)

theorem functionAt (a : Address) : Looks (functionAt a) :=
  (cellAt a).bind fun c => by
    cases c with
    | closure _ _ => exact pure _
    | _ => exact stop (by decide)

theorem orFault (x : Option α) : Looks (orFault x) := by
  cases x with
  | none => exact stop (by decide)
  | some v => exact pure v

theorem truth (v : Value) : Looks (truth v) := by
  cases v with
  | bool b => exact pure b
  | _ => exact stop (by decide)

theorem elementOf (x : Value) (i : Int) : Looks (elementOf x i) := by
  cases x with
  | ref a =>
    refine (cellAt a).bind fun c => ?_
    cases c with
    | array xs =>
      dsimp only
      split
      · exact stop (by decide)
      · exact pure _
    | _ => exact stop (by decide)
  | _ => exact stop (by decide)

theorem entryOf (x k : Value) : Looks (entryOf x k) := by
  cases x with
  | ref a =>
    refine (cellAt a).bind fun c => ?_
    cases c with
    | map es => exact pure _
    | _ => exact stop (by decide)
  | _ => exact stop (by decide)

end Looks

/-- A step that does nothing but add cells that nothing refers to yet. -/
def Quiet {α : Type} (m : Run α) : Prop :=
  ∀ ⦃s t : State⦄ ⦃x : α⦄, m s = .ok (x, t) → ∃ cells, t = { s with memory := s.memory ++ cells }

namespace Quiet

variable {α β : Type} {m : Run α}

theorem bind {f : α → Run β} (h : Quiet m) (hf : ∀ x, Quiet (f x)) : Quiet (m >>= f) := by
  intro s t y hok
  obtain ⟨x, u, hx, hy⟩ := bind_eq_ok hok
  obtain ⟨cells, rfl⟩ := h hx
  obtain ⟨cells', rfl⟩ := hf x hy
  exact ⟨cells ++ cells', by simp⟩

theorem of_looks (h : Looks m) : Quiet m := by
  intro s t x hok
  rcases h s with ⟨y, hy⟩ | ⟨reason, hm, -⟩
  · rw [hok] at hy
    cases hy
    exact ⟨[], by simp⟩
  · rw [hok] at hm
    cases hm

theorem allocate (c : Cell) : Quiet (allocate c) := by
  intro s t a h
  cases h
  exact ⟨[c], rfl⟩

theorem follows (h : Quiet m) : Follows σ ρ m (Pure.pure () : Run Unit) Anything := by
  intro ρ₀ s s' t x hle hs hm
  obtain ⟨cells, rfl⟩ := h hm
  exact ⟨(), s', ρ₀, rfl, le_rfl, hs.grow cells, trivial⟩

end Quiet

variable {call call' : Calls} {env env' : Env}

/-- A property of steps that a sequence has if its steps have it. Looking at the state and storing data
have it. -/
structure Compositional (P : (α : Type) → Run α → Prop) : Prop where
  bind {α β : Type} {m : Run α} {f : α → Run β} : P α m → (∀ x, P β (f x)) → P β (m >>= f)
  looks {α : Type} {m : Run α} : Looks m → P α m
  allocate {c : Cell} : (∀ code env, c ≠ .closure code env) → P Address (allocate c)

namespace Compositional

variable {P : (α : Type) → Run α → Prop} {ns : List Node}

theorem pure (hP : Compositional P) {α : Type} (x : α) : P α (Pure.pure x) := hP.looks (.pure x)

theorem stuck (hP : Compositional P) {α : Type} : P α (stop .stuck) := hP.looks (.stop (by decide))

theorem evalAll (hP : Compositional P) (h : ∀ n ∈ ns, P _ (eval call env n)) : P _ (evalAll call env ns) := by
  induction ns with
  | nil => exact hP.pure _
  | cons n ns ih =>
    obtain ⟨hn, hns⟩ := List.forall_mem_cons.mp h
    exact hP.bind hn fun _ => hP.bind (ih hns) fun _ => hP.pure _

theorem evalOptional (hP : Compositional P) {ns : Option (List Node)}
    (h : ∀ n ∈ ns.getD [], P _ (eval call env n)) : P _ (evalOptional call env ns) := by
  cases ns with
  | none => exact hP.pure _
  | some ns => exact hP.evalAll h

theorem evalEntries (hP : Compositional P) {es : List (Entry Node)}
    (h : ∀ n ∈ es.flatMap Entry.children, P _ (eval call env n)) : P _ (evalEntries call env es) := by
  induction es with
  | nil => exact hP.pure _
  | cons e es ih =>
    obtain ⟨he, hes⟩ := List.forall_mem_append.mp h
    exact hP.bind (he e.key (.head _)) fun _ => hP.bind (he e.value (.tail _ (.head _))) fun _ =>
      hP.bind (ih hes) fun _ => hP.pure _

theorem holds (hP : Compositional P) (h : P _ (eval call env n)) : P _ (holds call env n) :=
  hP.bind h fun x => hP.looks (.truth x)

theorem binary (hP : Compositional P) (op : BinaryOp) (type : Ty) (hleft : P _ (eval call env left))
    (hright : P _ (eval call env right)) : P _ (eval call env (.binary left op right type)) := by
  cases hop : isLogic op with
  | false =>
    rw [eval_strict hop]
    exact hP.bind hleft fun _ => hP.bind hright fun _ => hP.looks (.orFault _)
  | true =>
    rw [eval_logic hop]
    refine hP.bind (hP.holds hleft) fun b => ?_
    split
    · exact hP.bind (hP.holds hright) fun _ => hP.pure _
    · exact hP.pure _

/-- The evaluation of a node has the property if those of its children and the calls have it. -/
theorem eval (hP : Compositional P) (hcall : ∀ callee args type, n = .call callee args type → ∀ f xs, P _ (call f xs))
    (h : ∀ c ∈ n.children, P _ (eval call env c)) : P _ (Semantics.eval call env n) := by
  cases n with
  | intLit | floatLit | stringLit | boolLit => exact hP.pure _
  | var v =>
    simp only [Semantics.eval]
    split
    · exact hP.pure _
    · exact hP.looks ((Looks.addressOf env v.id).bind fun _ => .readVar _)
  | fn f =>
    simp only [Semantics.eval]
    split
    · exact hP.pure _
    · exact hP.looks ((Looks.addressOf env f.id).bind fun _ => .functionAt _)
  | binary left op right type => exact hP.binary op type (h left (.head _)) (h right (.tail _ (.head _)))
  | unary op operand =>
    simp only [Semantics.eval]
    exact hP.bind (h operand (.head _)) fun _ => hP.looks (.orFault _)
  | call callee args type =>
    obtain ⟨hcallee, hargs⟩ := List.forall_mem_cons.mp h
    simp only [Semantics.eval]
    exact hP.bind hcallee fun f => hP.bind (hP.evalOptional hargs) fun xs => hcall callee args type rfl f xs
  | arrayLit =>
    simp only [Semantics.eval]
    exact hP.bind (hP.evalOptional h) fun _ => hP.bind (hP.allocate (by simp)) fun _ => hP.pure _
  | mapLit =>
    simp only [Semantics.eval]
    exact hP.bind (hP.evalEntries h) fun _ => hP.bind (hP.allocate (by simp)) fun _ => hP.pure _
  | member array index =>
    cases index with
    | none => exact hP.stuck
    | some i =>
      simp only [Semantics.eval]
      exact hP.bind (h array (.head _)) fun _ => hP.looks (.elementOf _ i)
  | property map key =>
    simp only [Semantics.eval]
    exact hP.bind (h map (.head _)) fun _ => hP.bind (h key (.tail _ (.head _))) fun _ => hP.looks (.entryOf _ _)
  | _ => exact hP.stuck

end Compositional

theorem compositional_quiet : Compositional fun _ m => Quiet m where
  bind := Quiet.bind
  looks := Quiet.of_looks
  allocate _ := Quiet.allocate _

theorem quiet_eval {c : Prop} (hc : ¬ c) (h : Tame.Tree c n) : Quiet (eval call env n) := by
  induction n generalizing c with
  | h n ih =>
  cases hoccurs : Tame.occurs n with
  | false => cases n <;> first | exact compositional_quiet.stuck | cases hoccurs
  | true =>
    refine compositional_quiet.eval ?_ fun m hm => ih m hm ?_ (((Tame.tree_iff hoccurs).mp h).2 m hm)
    · rintro callee args type rfl
      exact absurd h.1 hc
    · cases n <;> first | exact hc | exact hc ∘ And.left

/-! ### Literals -/

inductive Literal : Node → Value → Prop
  | int (n : Int) : Literal (.intLit n) (.int n)
  | string (text : String) : Literal (.stringLit text) (.string text)
  | bool (name : String) (b : Bool) (type : Ty) : Literal (.boolLit name b type) (.bool b)

theorem Literal.eval_eq (h : Literal n v) : eval call env n = pure v := by
  cases h <;> rfl

theorem Literal.valueRel (h : Literal n v) (ρ : Links) : ValueRel ρ v v := by
  cases h <;> constructor

theorem integerPower_eq (base : Int) (exponent : Nat) : integerPower base exponent = base ^ exponent := by
  unfold integerPower
  split
  · next h => simp_all
  · next hexp =>
    have hpos : exponent ≠ 0 := by simpa using hexp
    split
    · next h => rw [eq_of_beq h, zero_pow hpos]
    split
    · next h => rw [eq_of_beq h, one_pow]
    split
    · next h =>
      rw [eq_of_beq h]
      split
      · next heven => exact (Even.neg_one_pow (Nat.even_iff.mpr (eq_of_beq heven))).symm
      · next hodd =>
        have hodd : exponent % 2 = 1 := by
          have : exponent % 2 ≠ 0 := by simpa using hodd
          omega
        exact (Odd.neg_one_pow (Nat.odd_iff.mpr hodd)).symm
    · rfl

theorem operate_arithmetic {n : Int} (h : op.arithmetic? l r = some n) :
    operate op (.int l) (.int r) = some (.int n) := by
  unfold BinaryOp.arithmetic? at h
  split at h
  · cases h
    rfl
  · cases h
    rfl
  · cases h
    rfl
  · split at h
    · cases h
    · next hr =>
      cases h
      have hr : r ≠ 0 := by simpa using hr
      simp [operate, onInts, hr]
  · split at h
    · cases h
    · next hr =>
      cases h
      have hr : r ≠ 0 := by simpa using hr
      simp [operate, onInts, hr]
  · split at h
    · cases h
    · next hr =>
      cases h
      simp [operate, onInts, hr, integerPower_eq]
  · cases h

theorem operate_comparison {b : Bool} (h : op.comparison? (compare l r) = some b) :
    operate op (.int l) (.int r) = some (.bool b) := by
  rcases lt_trichotomy l r with hlt | heq | hgt
  · rw [compare_lt_iff_lt.mpr hlt] at h
    cases op <;> cases h <;> simp [operate, onInts, isUnset, same] <;> omega
  · subst heq
    rw [compare_eq_iff_eq.mpr rfl] at h
    cases op <;> cases h <;> simp [operate, onInts, isUnset, same]
  · rw [compare_gt_iff_gt.mpr hgt] at h
    cases op <;> cases h <;> simp [operate, onInts, isUnset, same] <;> omega

theorem Literal.eq_of_valueRel {x : Value} (h : Literal n v) (hx : ValueRel ρ x v) : x = v := by
  cases h <;> cases hx <;> rfl

theorem literal_of_isBool {b : Bool} (h : isBool b n) : Literal n (.bool b) := by
  cases n with
  | boolLit name value type =>
    rw [← eq_of_beq h]
    exact .bool name value type
  | _ => cases h

theorem literal_ofBool (b : Bool) : Literal (.ofBool b) (.bool b) := .bool _ b _

/-- What folding makes of literals is the literal of the operator's value. -/
def Folded (left : Node) (op : BinaryOp) (right n : Node) : Prop :=
  ∃ x y v, Literal left x ∧ Literal right y ∧ Literal n v ∧ operate op x y = some v

theorem folded_foldInts (h : foldInts l op r = some n) : Folded (.intLit l) op (.intLit r) n := by
  unfold foldInts at h
  split at h
  · cases h
  split at h
  · next value hvalue =>
    cases h
    exact ⟨_, _, _, .int l, .int r, .int value, operate_arithmetic hvalue⟩
  · obtain ⟨b, hb, rfl⟩ := Option.map_eq_some_iff.mp h
    exact ⟨_, _, _, .int l, .int r, literal_ofBool b, operate_comparison hb⟩

theorem folded_foldOther (h : foldOther left op right = some n) : Folded left op right n := by
  unfold foldOther at h
  split at h
  · cases h
    exact ⟨_, _, _, .string _, .string _, .string _, rfl⟩
  · cases h
    exact ⟨_, _, _, .string _, .string _, literal_ofBool _, rfl⟩
  · cases h
    exact ⟨_, _, _, .string _, .string _, literal_ofBool _, rfl⟩
  · cases h
    exact ⟨_, _, _, .bool _ _ _, .bool _ _ _, literal_ofBool _, rfl⟩
  · cases h
    exact ⟨_, _, _, .bool _ _ _, .bool _ _ _, literal_ofBool _, rfl⟩
  · cases h

theorem int_of_isZero (h : isZero n) (hfloat : isFloat n = false) : n = .intLit 0 := by
  cases n with
  | intLit i => rw [eq_of_beq h]
  | floatLit => cases hfloat
  | _ => cases h

theorem int_of_isOne (h : isOne n) (hfloat : isFloat n = false) : n = .intLit 1 := by
  cases n with
  | intLit i => rw [eq_of_beq h]
  | floatLit => cases hfloat
  | _ => cases h

theorem folded_foldedNumbers (hleft : isFloat left = false) (hright : isFloat right = false)
    (h : foldedNumbers left op right = some n) : Folded left op right n := by
  unfold foldedNumbers at h
  split at h
  · exact folded_foldInts h
  · cases hright
  · cases hleft
  · cases hleft
  · cases h

/-! ### Laws of zero and one -/

section Values

variable {x y v : Value}

theorem operate_zero_add (h : operate .add (.int 0) y = some v) : v = y := by
  cases y <;> cases h
  rw [Int.zero_add]

theorem operate_add_zero (h : operate .add x (.int 0) = some v) : v = x := by
  cases x <;> cases h
  rw [Int.add_zero]

theorem operate_sub_zero (h : operate .sub x (.int 0) = some v) : v = x := by
  cases x <;> cases h
  rw [Int.sub_zero]

theorem operate_one_mul (h : operate .mul (.int 1) y = some v) : v = y := by
  cases y <;> cases h
  rw [Int.one_mul]

theorem operate_mul_one (h : operate .mul x (.int 1) = some v) : v = x := by
  cases x <;> cases h
  rw [Int.mul_one]

theorem operate_zero_mul (h : operate .mul (.int 0) y = some v) : v = .int 0 := by
  cases y <;> cases h
  rw [Int.zero_mul]

theorem operate_mul_zero (h : operate .mul x (.int 0) = some v) : v = .int 0 := by
  cases x <;> cases h
  rw [Int.mul_zero]

theorem operate_div_one (h : operate .div x (.int 1) = some v) : v = x := by
  cases x <;> cases h
  rw [Int.tdiv_one]

theorem operate_zero_div (h : operate .div (.int 0) y = some v) : v = .int 0 := by
  cases y with
  | int r =>
    by_cases hr : r = 0
    · simp [operate, onInts, hr] at h
    · simp only [operate, onInts, if_neg hr, Int.zero_tdiv] at h
      cases h
      rfl
  | _ => cases h

theorem operate_one_pow (h : operate .pow (.int 1) y = some v) : v = .int 1 := by
  cases y with
  | int r =>
    by_cases hr : r < 0
    · simp [operate, onInts, hr] at h
    · simp only [operate, onInts, if_neg hr, one_pow] at h
      cases h
      rfl
  | _ => cases h

theorem operate_pow_zero (h : operate .pow x (.int 0) = some v) : v = .int 1 := by
  cases x <;> cases h
  rw [Int.toNat_zero, pow_zero]

end Values

/-! ### Operators with known operands -/

section Known

variable {σ : Setting} {ρ : Links} {left right left' right' n : Node} {op : BinaryOp} {type : Ty}
  (hop : isLogic op = false)
  (hleft : Follows σ ρ (eval call env left) (eval call' env' left') ValueRel)
  (hright : Follows σ ρ (eval call env right) (eval call' env' right') ValueRel)

include hop hleft hright

variable {c : Int}

theorem follows_folded (h : Folded left' op right' n) :
    Follows σ ρ (eval call env (.binary left op right type)) (eval call' env' n) ValueRel := by
  obtain ⟨x, y, v, hx, hy, hn, hv⟩ := h
  rw [eval_strict hop, hn.eval_eq]
  rw [hx.eval_eq] at hleft
  rw [hy.eval_eq] at hright
  refine hleft.bind_left ?_
  intro ρ₁ x' hle hx'
  refine (hright.mono hle).bind_left ?_
  intro ρ₂ y' hle' hy'
  rw [hx.eq_of_valueRel hx', hy.eq_of_valueRel hy', hv]
  exact .pure fun ρ' _ => hn.valueRel ρ'

theorem follows_right (ha : left' = .intLit a) (h : ∀ y v, operate op (.int a) y = some v → v = y) :
    Follows σ ρ (eval call env (.binary left op right type)) (eval call' env' right') ValueRel := by
  subst ha
  rw [eval_strict hop]
  refine hleft.bind_left ?_
  intro ρ₁ x hle hx
  cases hx
  refine (hright.mono hle).bind_done ?_
  intro ρ₂ y y' _ hy
  cases hv : operate op (.int a) y with
  | none => exact .stop
  | some v =>
    rw [h y v hv]
    exact .pure fun _ hle => hy.mono hle

theorem follows_left (hb : right' = .intLit b) (h : ∀ x v, operate op x (.int b) = some v → v = x) :
    Follows σ ρ (eval call env (.binary left op right type)) (eval call' env' left') ValueRel := by
  subst hb
  rw [eval_strict hop]
  refine hleft.bind_done ?_
  intro ρ₁ x x' hle hx
  refine (hright.mono hle).bind_left ?_
  intro ρ₂ y hle' hy
  cases hy
  cases hv : operate op x (.int b) with
  | none => exact .stop
  | some v =>
    rw [h x v hv]
    exact .pure fun _ hle => hx.mono (hle'.trans hle)

omit hright in
theorem follows_decided_left (ha : left' = .intLit a) (hquiet : Quiet (eval call env right))
    (h : ∀ y v, operate op (.int a) y = some v → v = .int c) :
    Follows σ ρ (eval call env (.binary left op right type)) (eval call' env' (.intLit c)) ValueRel := by
  subst ha
  rw [eval_strict hop]
  refine hleft.bind_left ?_
  intro ρ₁ x _ hx
  cases hx
  refine hquiet.follows.bind_left ?_
  intro ρ₂ y _ _
  cases hv : operate op (.int a) y with
  | none => exact .stop
  | some v =>
    rw [h y v hv]
    exact .pure fun _ _ => .int c

omit hleft in
theorem follows_decided_right (hb : right' = .intLit b) (hquiet : Quiet (eval call env left))
    (h : ∀ x v, operate op x (.int b) = some v → v = .int c) :
    Follows σ ρ (eval call env (.binary left op right type)) (eval call' env' (.intLit c)) ValueRel := by
  subst hb
  rw [eval_strict hop]
  refine hquiet.follows.bind_left ?_
  intro ρ₁ x hle _
  refine (hright.mono hle).bind_left ?_
  intro ρ₂ y _ hy
  cases hy
  cases hv : operate op x (.int b) with
  | none => exact .stop
  | some v =>
    rw [h x v hv]
    exact .pure fun _ _ => .int c

omit hop

theorem follows_negated (hzero : left' = .intLit 0) {leading : Bool} {type' : Ty} :
    Follows σ ρ (eval call env (.binary left .sub right type))
      (eval call' env' (.unary .neg right' leading type')) ValueRel := by
  subst hzero
  simp only [eval]
  refine hleft.bind_left ?_
  intro ρ₁ x hle hx
  cases hx
  refine (hright.mono hle).bind ?_
  intro ρ₂ y y' _ hy
  refine follows_orFault ?_
  intro v hv
  cases hy <;> cases hv
  rw [Int.zero_sub]
  exact ⟨_, rfl, .int _⟩

/-! ### Truth values -/

omit hright in
theorem follows_holds_literal {u : Bool} (h : isBool u left') :
    Follows σ ρ (holds call env left) (pure u) fun _ b b' => b = b' := by
  rw [(literal_of_isBool h).eval_eq] at hleft
  refine hleft.bind_left ?_
  intro ρ₁ x _ hx
  cases hx
  exact .pure fun _ _ => rfl

omit hleft in
theorem follows_checked :
    Follows σ ρ (do return .bool (← holds call env right)) (eval call' env' right') ValueRel := by
  rw [holds, bind_assoc]
  refine hright.bind_done ?_
  intro ρ₁ x x' _ hx
  cases hx with
  | bool b => exact .pure fun _ _ => .bool b
  | _ => exact .stop

theorem follows_unit_right (hop : isLogic op) (h : isBool (decides op) right') :
    Follows σ ρ (eval call env (.binary left op right type)) (eval call' env' left') ValueRel := by
  rw [eval_logic hop, holds, bind_assoc]
  refine hleft.bind_done ?_
  intro ρ₁ x x' hle hx
  cases hx with
  | bool b =>
    rw [truth, pure_bind]
    split
    · next hb =>
      refine ((follows_holds_literal hright h).mono hle).bind_left ?_
      rintro ρ₂ b' _ rfl
      rw [hb]
      exact .pure fun _ _ => .bool _
    · exact .pure fun _ _ => .bool b
  | _ => exact .stop

theorem follows_combine (hl : isFloat left' = false) (hr : isFloat right' = false)
    (hquiet : op.isFactor → Quiet (eval call env left) ∧ Quiet (eval call env right)) :
    Follows σ ρ (eval call env (.binary left op right type))
      (eval call' env' (combine left' op right' type)) ValueRel := by
  have hlaw := law_combine left' op right' type
  generalize combine left' op right' type = n at hlaw ⊢
  cases hlaw with
  | unitLeft hop h =>
    rw [eval_logic hop]
    refine (follows_holds_literal hleft h).bind_left ?_
    rintro ρ₁ b hle rfl
    rw [if_pos rfl]
    exact follows_checked (hright.mono hle)
  | unitRight hop h => exact follows_unit_right hleft hright hop h
  | decided hop h =>
    rw [eval_logic hop, (literal_of_isBool h).eval_eq]
    refine (follows_holds_literal hleft h).bind_left ?_
    rintro ρ₁ b _ rfl
    rw [if_neg (Bool.not_ne_self _)]
    exact .pure fun _ _ => .bool _
  | numbers hop h => exact follows_folded hop hleft hright (folded_foldedNumbers hl hr h)
  | texts hop h => exact follows_folded hop hleft hright (folded_foldOther h)
  | zeroAdd h => exact follows_right rfl hleft hright (int_of_isZero h hl) fun _ _ => operate_zero_add
  | zeroSub h => exact follows_negated hleft hright (int_of_isZero h hl)
  | oneMul h => exact follows_right rfl hleft hright (int_of_isOne h hl) fun _ _ => operate_one_mul
  | zeroMul h =>
    obtain rfl := int_of_isZero h hl
    exact follows_decided_left rfl hleft rfl (hquiet rfl).2 fun _ _ => operate_zero_mul
  | zeroDiv h =>
    obtain rfl := int_of_isZero h hl
    exact follows_decided_left rfl hleft rfl (hquiet rfl).2 fun _ _ => operate_zero_div
  | onePow h =>
    obtain rfl := int_of_isOne h hl
    exact follows_decided_left rfl hleft rfl (hquiet rfl).2 fun _ _ => operate_one_pow
  | addZero h => exact follows_left rfl hleft hright (int_of_isZero h hr) fun _ _ => operate_add_zero
  | subZero h => exact follows_left rfl hleft hright (int_of_isZero h hr) fun _ _ => operate_sub_zero
  | mulOne h => exact follows_left rfl hleft hright (int_of_isOne h hr) fun _ _ => operate_mul_one
  | mulZero h =>
    obtain rfl := int_of_isZero h hr
    exact follows_decided_right rfl hright rfl (hquiet rfl).1 fun _ _ => operate_mul_zero
  | divOne h => exact follows_left rfl hleft hright (int_of_isOne h hr) fun _ _ => operate_div_one
  | powZero h =>
    obtain rfl := int_of_isZero h hr
    exact follows_decided_right rfl hright rfl (hquiet rfl).1 fun _ _ => operate_pow_zero
  | kept => exact follows_binary op hleft hright

end Known

theorem follows_combineUnary {operand operand' : Node} (op : UnaryOp) (leading : Bool) (type : Ty)
    (hfloat : isFloat operand' = false)
    (h : Follows σ ρ (eval call env operand) (eval call' env' operand') ValueRel) :
    Follows σ ρ (eval call env (.unary op operand leading type))
      (eval call' env' (combineUnary op operand' leading type)) ValueRel := by
  unfold combineUnary
  split
  · simp only [eval]
    refine h.bind_left ?_
    intro ρ₁ x _ hx
    cases hx
    exact .pure fun _ _ => .int _
  · cases hfloat
  · simp only [eval]
    refine h.bind_left ?_
    intro ρ₁ x _ hx
    cases hx
    exact .pure fun _ _ => .bool _
  · exact follows_unary op h

/-! ### Expressions -/

section Expressions

variable {σ : Setting} {ρ : Links}

/-- A simplified expression has the value of the expression. -/
theorem follows_simpler (hcalls : Respects σ call call') (henv : EnvRel ρ env env') {c : Prop} {n : Node}
    (h : Tame.Tree c n) : Follows σ ρ (eval call env n) (eval call' env' (simpler n)) ValueRel := by
  induction n generalizing c with
  | h n ih =>
  have hchildren (hoccurs : Tame.occurs n) (hvar : ∀ v, n ≠ .var v) (hfn : ∀ f, n ≠ .fn f) :=
    follows_mapChildren hcalls hvar hfn fun m hm => ih m hm (((Tame.tree_iff hoccurs).mp h).2 m hm)
  cases n with
  | var v => exact follows_var henv v
  | fn f => exact follows_fn henv f
  | binary left op right type =>
    have hquiet : op.isFactor = true → Quiet (eval call env left) ∧ Quiet (eval call env right) := by
      intro hfactor
      have hnone : ¬ (c ∧ op.isFactor = false) := by simp [hfactor]
      exact ⟨quiet_eval hnone h.1, quiet_eval hnone h.2⟩
    have hcombine : Follows σ ρ (eval call env (.binary left op right type))
        (eval call' env' (combine (simpler left) op (simpler right) type)) ValueRel :=
      follows_combine (ih left (.head _) h.1) (ih right (.tail _ (.head _)) h.2)
        (Tame.tree_simpler h.1).not_isFloat (Tame.tree_simpler h.2).not_isFloat hquiet
    cases op <;> first | exact hcombine | exact .of_ne_ok (eval_ne_ok rfl)
  | unary op operand leading type =>
    exact follows_combineUnary op leading type (Tame.tree_simpler (n := operand) h).not_isFloat
      (ih operand (.head _) h)
  | call | arrayLit =>
    rw [simpler, simplerOptional_eq_map]
    exact hchildren rfl (by simp) (by simp)
  | mapLit =>
    rw [simpler, simplerEntries_eq_map]
    exact hchildren rfl (by simp) (by simp)
  | program | classDecl | ifCase | switchCase | entry => exact .stop
  | _ => exact hchildren rfl (by simp) (by simp)

end Expressions

end Semantics

end LemonScript
