import LemonScript.Proofs.Semantics.Plain
/-!
# Loops that are written out

The variable of such a loop is on the left only. Its value is pinned while the body runs, which is why
the literal that is put in its place has the same value; the step of the loop pins the next one.
-/

namespace LemonScript

namespace Semantics

open Simplify

variable {σ : Setting} {ρ : Links} {call call' : Calls} {env env' : Env} {a : Address}

/-! ### A variable on the left only -/

variable {pins : Address → Value → Prop} {c : Prop} {step : Node}
variable {id x : Int} {v : Variable} {fuel : Nat} {init condition : Node} {i : Iterations}

theorem addressOf_cons_ne (hne : x ≠ id) : addressOf ((id, a) :: env) x = addressOf env x := by
  unfold addressOf
  rw [List.lookup_cons, beq_false_of_ne hne]

theorem addressOf_cons_self (hown : Library.isLibrary id = false) :
    addressOf ((id, a) :: env) id = pure a := by
  unfold addressOf
  rw [hown, List.lookup_cons_self]
  rfl

theorem follows_pinned {value : Int} (h : σ.pins a (.int value)) :
    Follows σ ρ (readVar a) (pure (.int value)) ValueRel := by
  intro ρ₀ s s' t x hle hs hm
  obtain ⟨hcell, rfl⟩ := readVar_eq_ok hm
  rw [hs.pinned h] at hcell
  cases hcell
  exact ⟨_, s', ρ₀, rfl, le_rfl, hs, .int value⟩

theorem functionAt_pinned {m' : Run Value} {v : Value} (h : σ.pins a v) :
    Follows σ ρ (functionAt a) m' ValueRel := by
  intro ρ₀ s s' t x hle hs hm
  obtain ⟨c, u, hc, hclosure⟩ := bind_eq_ok hm
  obtain ⟨hcell, rfl⟩ := cellAt_eq_ok hc
  rw [hs.pinned h] at hcell
  cases hcell
  cases hclosure

/-- A literal may be put in the place of the variable at an address that is on the left only. -/
structure Substitutes (σ : Setting) (ρ : Links) (id value : Int) (a : Address) (env env' : Env) :
    Prop where
  own : Library.isLibrary id = false
  pinned : σ.pins a (.int value)
  env : EnvRel ρ env env'

section Put

variable {id value : Int}

theorem follows_put_var (h : Substitutes σ ρ id value a env env') (v : Variable) :
    Follows σ ρ (eval call ((id, a) :: env) (.var v)) (eval call' env' (put id value (.var v)))
      ValueRel := by
  unfold put
  by_cases hid : v.id = id
  · rw [if_pos (beq_iff_eq.mpr hid), eval_var (hid ▸ h.own), hid, addressOf_cons_self h.own, pure_bind]
    exact follows_pinned h.pinned
  · have heq : eval call ((id, a) :: env) (.var v) = eval call env (.var v) := by
      simp only [eval, addressOf_cons_ne hid]
    rw [if_neg (by simpa using hid), heq]
    exact follows_var h.env v

theorem follows_put_fn (h : Substitutes σ ρ id value a env env') (f : Function) :
    Follows σ ρ (eval call ((id, a) :: env) (.fn f)) (eval call' env' (.fn f)) ValueRel := by
  by_cases hid : f.id = id
  · have heq : eval call ((id, a) :: env) (.fn f) = functionAt a := by
      simp only [eval, hid, h.own, addressOf_cons_self h.own, pure_bind]
      rfl
    rw [heq]
    exact functionAt_pinned h.pinned
  · have heq : eval call ((id, a) :: env) (.fn f) = eval call env (.fn f) := by
      simp only [eval, addressOf_cons_ne hid]
    rw [heq]
    exact follows_fn h.env f

theorem follows_put_address (h : Substitutes σ ρ id value a env env') (hne : x ≠ id) :
    Follows σ ρ (addressOf ((id, a) :: env) x) (addressOf env' x) (fun ρ' a b => ρ'.rel a b) := by
  rw [addressOf_cons_ne hne]
  exact follows_addressOf h.env x

theorem follows_put (hcalls : Respects σ call call') (h : Substitutes σ ρ id value a env env') (n : Node) :
    Follows σ ρ (eval call ((id, a) :: env) n) (eval call' env' (put id value n)) ValueRel := by
  induction n with
  | h n ih =>
  cases n with
  | var v => exact follows_put_var h v
  | fn f => exact follows_put_fn h f
  | _ =>
    rw [put_eq_mapChildren id value (by simp)]
    exact follows_mapChildren hcalls (by simp) (by simp) ih

/-! ### Statements that can be copied -/

/-- How control leaves a statement that is copied: it goes on or leaves the function. Nothing is
declared on the left. -/
structure CopyRel (inner env : Env) (ρ : Links) (r r' : Flow × Env) : Prop where
  left : r.2 = inner
  env : EnvRel ρ env r'.2
  flow : FlowRel ρ r.1 r'.1
  stays : r.1 ≠ .chop ∧ r.1 ≠ .next

theorem Follows.copyRel {inner : Env} {m m' : Run (Flow × Env)}
    (h : Follows σ ρ m m' (Onward inner env')) (henv : EnvRel ρ env env') :
    Follows σ ρ m m' (CopyRel inner env) := by
  refine h.imp ?_
  rintro ρ₁ _ _ hle ⟨rfl, rfl⟩
  exact ⟨rfl, henv.mono hle, .onward, nofun, nofun⟩

theorem put_of_not_isLoopVariable (value : Int) {w : Variable}
    (h : isLoopVariable (some v) (.var w) = false) :
    w.id ≠ v.id ∧ put v.id value (.var w) = .var w := by
  have hne : w.id ≠ v.id := by
    intro heq
    simp [isLoopVariable, heq] at h
  exact ⟨hne, by simp [put, hne]⟩

section Copy

variable {v : Variable} {fuel fuel' : Nat} {n : Node}

theorem follows_put_assign {target source : Node} (hcalls : Respects σ call call')
    (h : Substitutes σ ρ v.id value a env env') (htarget : isLoopVariable (some v) target = false) :
    Follows σ ρ (assignTo call ((v.id, a) :: env) target source)
      (assignTo call' env' (put v.id value target) (put v.id value source)) Anything := by
  have hsource := follows_put hcalls h source
  cases target with
  | var w =>
    obtain ⟨hne, hput⟩ := put_of_not_isLoopVariable value htarget
    rw [hput]
    exact follows_assignTo_var (follows_put_address h hne) hsource
  | member array index _ => exact follows_assignTo_member index (follows_put hcalls h array) hsource
  | property map key _ =>
    exact follows_assignTo_property (follows_put hcalls h map) (follows_put hcalls h key) hsource
  | _ => exact .stop

theorem follows_put_change (hcalls : Respects σ call call')
    (h : Substitutes σ ρ v.id value a env env') (hn : isEvaluated n = false)
    (hcopy : copyable (some v) n) :
    Follows σ ρ (change call ((v.id, a) :: env) n) (change call' env' (put v.id value n)) Anything := by
  cases n with
  | binary left op right =>
    cases left with
    | var w =>
      have htarget : isLoopVariable (some v) (.var w) = false := by
        cases op <;> first | simpa [copyable] using hcopy | cases hn
      obtain ⟨hne, hput⟩ := put_of_not_isLoopVariable value htarget
      rw [put, hput]
      exact follows_change_compound (follows_put_address h hne) (follows_put hcalls h right)
    | _ => exact .stop
  | unary op operand =>
    cases operand with
    | var w =>
      have htarget : isLoopVariable (some v) (.var w) = false := by
        cases op <;> first | simpa [copyable] using hcopy | cases hn
      obtain ⟨hne, hput⟩ := put_of_not_isLoopVariable value htarget
      rw [put, hput]
      exact follows_change_unary (follows_put_address h hne)
    | _ => exact .stop
  | _ => exact .stop

theorem follows_put_exec (hcalls : Respects σ call call') (h : Substitutes σ ρ v.id value a env env')
    (hcopy : copyable (some v) n) :
    Follows σ ρ (exec call fuel ((v.id, a) :: env) n) (exec call' fuel' env' (put v.id value n))
      (CopyRel ((v.id, a) :: env) env) := by
  cases n with
  | assign target =>
    have htarget : isLoopVariable (some v) target = false := by simpa [copyable] using hcopy
    exact (follows_onward (follows_put_assign hcalls h htarget)).copyRel h.env
  | giveBack e =>
    simp only [exec, put]
    refine (follows_put hcalls h e).bind ?_
    intro ρ₁ x x' hle hx
    exact .pure fun _ hle' =>
      ⟨rfl, h.env.mono (hle.trans hle'), .back (hx.mono hle'), nofun, nofun⟩
  | giveBackNothing =>
    exact .pure fun _ hle => ⟨rfl, h.env.mono hle, .back .unset, nofun, nofun⟩
  | binary left op right type =>
    cases hop : isEvaluated (.binary left op right type) with
    | true => exact (follows_evaluated hop (follows_put hcalls h _)).copyRel h.env
    | false =>
      have hchange := follows_put_change hcalls h hop hcopy
      cases op <;> first | exact (follows_onward hchange).copyRel h.env | cases hop
  | unary op operand leading type =>
    cases hop : isEvaluated (.unary op operand leading type) with
    | true => exact (follows_evaluated hop (follows_put hcalls h _)).copyRel h.env
    | false =>
      have hchange := follows_put_change hcalls h hop hcopy
      cases op <;> first | exact (follows_onward hchange).copyRel h.env | cases hop
  | varDecl | funDecl | classDecl | ifElse | whileLoop | forLoop | switch | chop | next => cases hcopy
  | _ => exact (follows_evaluated rfl (follows_put hcalls h _)).copyRel h.env

theorem follows_copied (hcalls : ∀ pins, Respects ⟨Same, pins⟩ call call)
    (h : Substitutes ⟨Same, pins⟩ ρ v.id value a env env') (hcopy : copyable (some v) n)
    (htame : Tame.Tree c n) : Follows ⟨Same, pins⟩ ρ (exec call fuel ((v.id, a) :: env) n)
      (execAll call fuel' env' ((plain (put v.id value n)).getD [])) (CopyRel ((v.id, a) :: env) env) := by
  have hplain : isPlain (put v.id value n) = true := by
    cases n with
    | var w =>
      unfold put
      split <;> rfl
    | funDecl | ifElse | whileLoop | forLoop | switch => cases hcopy
    | _ => rfl
  have hsimpler : Follows ⟨Same, noPins⟩ ρ.diagonal (exec call fuel' env' (put v.id value n))
      (execAll call fuel' env' ((plain (put v.id value n)).getD [])) ResultRel :=
    follows_plain (hcalls noPins) h.env.self (Tame.tree_put _ _ htame) hplain
  refine (follows_put_exec (hcalls pins) h hcopy).trans hsimpler ?_
  intro ρ₁ τ r r' r'' hr hr'
  exact ⟨hr.left, hr.env.comp hr'.2, hr.flow.comp hr'.1, hr.stays⟩

theorem follows_copy (hcalls : ∀ pins, Respects ⟨Same, pins⟩ call call) {body : List Node}
    (hcopy : body.all (copyable (some v))) (htame : Tame.Trees c body)
    (h : Substitutes ⟨Same, pins⟩ ρ v.id value a env env') :
    Follows ⟨Same, pins⟩ ρ (execAll call fuel ((v.id, a) :: env) body)
      (execAll call fuel' env' (copy v.id value body)) (CopyRel ((v.id, a) :: env) env) := by
  induction body generalizing ρ env' with
  | nil => exact .pure fun _ hle => ⟨rfl, h.env.mono hle, .onward, nofun, nofun⟩
  | cons n ns ih =>
    rw [List.all_cons, Bool.and_eq_true] at hcopy
    rw [execAll, copy, execAll_append]
    refine (follows_copied hcalls h hcopy.1 htame.1).bind ?_
    rintro ρ₁ ⟨flow, inner⟩ ⟨flow', env''⟩ hle hr
    obtain ⟨rfl, henv, hflow, hstays⟩ := hr
    dsimp only at henv hflow hstays ⊢
    cases hflow with
    | onward => exact ih hcopy.2 htame.2 ⟨h.own, h.pinned, henv⟩
    | back hv =>
      exact .pure fun _ hle => ⟨rfl, henv.mono hle, .back (hv.mono hle), hstays⟩
    | chop => exact absurd rfl hstays.1
    | next => exact absurd rfl hstays.2

end Copy

end Put

/-! ### Counting -/

def pin (a : Address) (value : Int) : Address → Value → Prop :=
  fun x v => x = a ∧ v = .int value

section Pins

variable {R : Codes} {s s' : State} {value : Int}

theorem StateRel.unpin (h : StateRel ⟨R, pins⟩ ρ s s') :
    StateRel ⟨R, noPins⟩ ρ s s' where
  cells := h.cells
  oneToOne := h.oneToOne
  closed_right := h.closed_right
  right := h.right
  output := h.output
  pinned := False.elim
  unlinked := False.elim

theorem StateRel.addPin (h : StateRel ⟨R, noPins⟩ ρ s s') (value : Int) :
    StateRel ⟨R, pin s.memory.length value⟩ ρ
      { s with memory := s.memory ++ [.var (.int value)] } s' where
  cells := (h.grow _).cells
  oneToOne := h.oneToOne
  closed_right := h.closed_right
  right := h.right
  output := h.output
  pinned := by
    rintro _ _ ⟨rfl, rfl⟩
    exact List.getElem?_concat_length
  unlinked := by
    rintro _ b _ ⟨rfl, rfl⟩ hab
    exact absurd (h.lt_left hab) (Nat.lt_irrefl _)

theorem StateRel.changePin (h : StateRel ⟨R, pin a value⟩ ρ s s') (value' : Int) :
    StateRel ⟨R, pin a value'⟩ ρ { s with memory := s.memory.set a (.var (.int value')) } s' where
  cells := by
    intro x y hxy
    obtain ⟨c, c', hx, hy, hcell⟩ := h.cells hxy
    refine ⟨c, c', cell_set_ne ?_ hx, hy, hcell⟩
    rintro rfl
    exact h.unlinked ⟨rfl, rfl⟩ hxy
  oneToOne := h.oneToOne
  closed_right := h.closed_right
  right := h.right
  output := h.output
  pinned := by
    rintro _ _ ⟨rfl, rfl⟩
    exact cell_set_self (h.pinned ⟨rfl, rfl⟩)
  unlinked := by
    rintro _ b _ ⟨rfl, rfl⟩
    exact h.unlinked ⟨rfl, rfl⟩

end Pins

section Counter

variable {v : Variable} {k : Int} {s t : State}
variable {op : BinaryOp} {bound count : Int}
variable {b : Bool}

theorem var_of_isLoopVariable {n : Node} (h : isLoopVariable (some v) n) :
    ∃ w : Variable, n = .var w ∧ w.id = v.id := by
  cases n with
  | var w => exact ⟨w, rfl, (eq_of_beq (show (v.id == w.id) = true from h)).symm⟩
  | _ => cases h

theorem orFault_eq_ok {α : Type} {x : Option α} {y : α} (h : orFault x s = .ok (y, t)) :
    x = some y ∧ t = s := by
  cases x with
  | none => cases h
  | some z =>
    cases h
    exact ⟨rfl, rfl⟩

theorem holds_counter {left : Node} {type : Ty} (hown : Library.isLibrary v.id = false)
    (hleft : isLoopVariable (some v) left) (hop : isLogic op = false)
    (hcell : s.memory[a]? = some (.var (.int k)))
    (h : holds call ((v.id, a) :: env) (.binary left op (.intLit bound) type) s = .ok (b, t)) :
    operate op (.int k) (.int bound) = some (.bool b) ∧ t = s := by
  obtain ⟨w, rfl, hid⟩ := var_of_isLoopVariable hleft
  obtain ⟨z, u, heval, htruth⟩ := bind_eq_ok h
  rw [eval_strict hop, eval_var (hid ▸ hown), hid, addressOf_cons_self hown, pure_bind] at heval
  obtain ⟨x, u₁, hx, hrest⟩ := bind_eq_ok heval
  obtain ⟨hk, rfl⟩ := readVar_eq_ok hx
  obtain ⟨y, u₂, hy, hz⟩ := bind_eq_ok hrest
  obtain ⟨rfl, rfl⟩ := pure_eq_ok hy
  obtain ⟨hoperate, rfl⟩ := orFault_eq_ok hz
  rw [hcell] at hk
  cases hk
  cases z with
  | bool b' =>
    cases htruth
    exact ⟨hoperate, rfl⟩
  | _ => cases htruth

theorem change_counter {d : Int} {x : Unit} (hown : Library.isLibrary v.id = false)
    (hstep : stepOf? (some v) step = some d) (hcell : s.memory[a]? = some (.var (.int k)))
    (h : change call ((v.id, a) :: env) step s = .ok (x, t)) :
    t = { s with memory := s.memory.set a (.var (.int (k + d))) } := by
  have hread : ∀ {y : Value} {u : State}, readVar a s = .ok (y, u) → y = .int k ∧ u = s := by
    intro y u hy
    obtain ⟨hk, rfl⟩ := readVar_eq_ok hy
    rw [hcell] at hk
    cases hk
    exact ⟨rfl, rfl⟩
  unfold stepOf? at hstep
  split at hstep
  · next op operand leading type =>
    split at hstep
    · next hvar =>
      obtain ⟨w, rfl, hid⟩ := var_of_isLoopVariable hvar
      rw [change, hid, addressOf_cons_self hown, pure_bind] at h
      obtain ⟨y, u, hy, hrest⟩ := bind_eq_ok h
      obtain ⟨rfl, rfl⟩ := hread hy
      obtain ⟨z, u', hz, hwrite⟩ := bind_eq_ok hrest
      obtain ⟨hstepped, rfl⟩ := orFault_eq_ok hz
      rw [writeVar_eq_ok hwrite]
      split at hstep <;> cases hstep <;> cases hstepped <;> rfl
    · cases hstep
  · next left op type =>
    split at hstep
    · next hvar =>
      obtain ⟨w, rfl, hid⟩ := var_of_isLoopVariable hvar
      split at hstep
      iterate 2
        cases hstep
        rw [change, hid, addressOf_cons_self hown, pure_bind] at h
        obtain ⟨y, u, hy, hrest⟩ := bind_eq_ok h
        obtain ⟨rfl, rfl⟩ := hread hy
        exact writeVar_eq_ok hrest
      · cases hstep
    · cases hstep
  · cases hstep

theorem counts {step : Int} (hcount : countOf? step op k bound = some count)
    (h : operate op (.int k) (.int bound) = some (.bool b)) : b ↔ 0 < count := by
  unfold countOf? at hcount
  split at hcount
  all_goals first | cases hcount | split at hcount
  all_goals first | cases hcount
  all_goals
    cases h
    rw [decide_eq_true_eq]
    omega

theorem countOf?_step {step : Int} (hcount : countOf? step op k bound = some count) :
    countOf? step op (k + step) bound = some (count - 1) := by
  unfold countOf? at hcount ⊢
  split at hcount
  all_goals first | cases hcount | split at hcount
  all_goals first | cases hcount
  all_goals
    next hstep =>
    obtain rfl := eq_of_beq hstep
    simp only [beq_self_eq_true, if_true, Option.some.injEq]
    omega

theorem isLogic_of_countOf? {step : Int} (hcount : countOf? step op k bound = some count) :
    isLogic op = false := by
  cases op <;> first | rfl | cases hcount

theorem values_step {step : Int} (hpos : 0 < count) : Iterations.values ⟨k, step, count.toNat⟩ =
      k :: Iterations.values ⟨k + step, step, (count - 1).toNat⟩ := by
  obtain ⟨m, hm⟩ : ∃ m : Nat, count.toNat = m + 1 := ⟨count.toNat - 1, by omega⟩
  have hpred : (count - 1).toNat = m := by omega
  simp only [Iterations.values, hm, hpred, List.range_succ_eq_map, List.map_cons, List.map_map]
  congr 1
  · simp
  · refine List.map_congr_left fun j _ => ?_
    simp only [Function.comp_apply, Nat.succ_eq_add_one]
    push_cast
    ring

end Counter

/-! ### Loops -/

section Loop

variable {v : Variable} {fuel fuel' : Nat} {left step : Node} {op : BinaryOp} {bound d : Int} {type : Ty}
  {body : List Node} {c : Prop}

/-- Each iteration of a counting loop runs like one copy of its body. -/
theorem runs_copies (hcalls : ∀ pins, Respects ⟨Same, pins⟩ call call)
    (hown : Library.isLibrary v.id = false) (hleft : isLoopVariable (some v) left)
    (hstep : stepOf? (some v) step = some d) (hcopy : body.all (copyable (some v)))
    (htame : Tame.Trees c body) (rounds : Nat) :
    ∀ {k count : Int} {ρ : Links} {s s' t : State} {flow : Flow} {env' : Env},
      countOf? d op k bound = some count → StateRel ⟨Same, pin a k⟩ ρ s s' → EnvRel ρ env env' →
      loop (holds call ((v.id, a) :: env) (.binary left op (.intLit bound) type))
        (Prod.fst <$> execAll call fuel ((v.id, a) :: env) body)
        (change call ((v.id, a) :: env) step) rounds s = .ok (flow, t) →
      ∃ r t' ρ', execAll call fuel' env' (copies v.id body (Iterations.values ⟨k, d, count.toNat⟩)) s' =
          .ok (r, t') ∧ ρ ≤ ρ' ∧ StateRel ⟨Same, noPins⟩ ρ' t t' ∧ ResultRel ρ' (flow, env) r := by
  induction rounds with
  | zero =>
    intro k count ρ s s' t flow env' _ _ _ hloop
    cases hloop
  | succ _ ih =>
    intro k count ρ s s' t flow env' hcount hs henv hloop
    obtain ⟨b, u, hcondition, hrest⟩ := bind_eq_ok hloop
    obtain ⟨hoperate, rfl⟩ := holds_counter hown hleft (isLogic_of_countOf? hcount)
      (hs.pinned ⟨rfl, rfl⟩) hcondition
    have hpositive := counts hcount hoperate
    cases b with
    | false =>
      obtain ⟨rfl, rfl⟩ := pure_eq_ok hrest
      have hnone : count.toNat = 0 := by
        have : ¬ 0 < count := by simpa using hpositive
        omega
      rw [hnone]
      exact ⟨_, s', ρ, rfl, le_rfl, hs.unpin, .onward, henv⟩
    | true =>
      obtain ⟨f, u', hbody, hagain⟩ := bind_eq_ok hrest
      rw [map_eq_pure_bind] at hbody
      obtain ⟨r, u'', hr, hpure⟩ := bind_eq_ok hbody
      obtain ⟨rfl, rfl⟩ := pure_eq_ok hpure
      have hfirst : Follows ⟨Same, pin a k⟩ ρ (execAll call fuel ((v.id, a) :: env) body)
          (execAll call fuel' env' (copy v.id k body)) (CopyRel ((v.id, a) :: env) env) :=
        follows_copy hcalls hcopy htame ⟨hown, ⟨rfl, rfl⟩, henv⟩
      obtain ⟨⟨flow', env''⟩, w, ρ₁, hr', hle, hw, hcopied⟩ := hfirst le_rfl hs hr
      obtain ⟨flow₁, inner⟩ := r
      rw [values_step (hpositive.mp rfl), copies, execAll_append, bind_of_ok hr']
      obtain ⟨-, henv', hflow, hstays⟩ := hcopied
      dsimp only at henv' hflow hstays hagain
      cases hflow with
      | onward =>
        obtain ⟨_, w', hchange, hloop'⟩ := bind_eq_ok hagain
        rw [change_counter hown hstep (hw.pinned ⟨rfl, rfl⟩) hchange] at hloop'
        obtain ⟨r, t', ρ₂, hrun, hle', ht, hresult⟩ :=
          ih (countOf?_step hcount) (hw.changePin (k + d)) henv' hloop'
        exact ⟨r, t', ρ₂, hrun, hle.trans hle', ht, hresult⟩
      | back hv =>
        obtain ⟨rfl, rfl⟩ := pure_eq_ok hagain
        exact ⟨_, w, ρ₁, rfl, hle, hw.unpin, .back hv, henv'⟩
      | chop => exact absurd rfl hstays.1
      | next => exact absurd rfl hstays.2

end Loop

theorem execBlock_eq (body : Option (List Node)) :
    execBlock call fuel env body = execAll call fuel env (body.getD []) := by
  cases body <;> rfl

theorem of_iterations? {entity : Option Variable}
    (h : iterations? entity init condition step = some i) :
    ∃ start left op bound type d count, init = .intLit start ∧
      condition = .binary left op (.intLit bound) type ∧ isLoopVariable entity left ∧
      stepOf? entity step = some d ∧ countOf? d op start bound = some count ∧
      i = ⟨start, d, count.toNat⟩ := by
  unfold iterations? at h
  split at h
  · next start left op bound type =>
    split at h
    · next hleft =>
      obtain ⟨d, hd, h⟩ := Option.bind_eq_some_iff.mp h
      obtain ⟨count, hcount, h⟩ := Option.bind_eq_some_iff.mp h
      cases h
      exact ⟨start, left, op, bound, type, d, count, rfl, rfl, hleft, hd, hcount, rfl⟩
    · cases h
  · cases h

theorem follows_unrolled {fuel' : Nat} {name : String} {body : Option (List Node)}
    (hcalls : ∀ pins, Respects ⟨Same, pins⟩ call call) (hown : Library.isLibrary v.id = false)
    (hi : iterations? (some v) init condition step = some i)
    (hcopy : (body.getD []).all (copyable (some v))) (htame : Tame.Optional c body)
    (henv : EnvRel ρ env env') :
    Follows ⟨Same, noPins⟩ ρ (exec call fuel env (.forLoop name init condition step body (some v)))
      (execAll call fuel' env' (copies v.id (body.getD []) i.values)) ResultRel := by
  obtain ⟨start, left, op, bound, type, d, count, rfl, rfl, hleft, hstep, hcount, rfl⟩ :=
    of_iterations? hi
  intro ρ₀ s s' t r hle hs hm
  simp only [exec, eval, pure_bind, execBlock_eq] at hm
  obtain ⟨a, u, ha, hrest⟩ := bind_eq_ok hm
  cases ha
  obtain ⟨flow, w, hloop, hpure⟩ := bind_eq_ok hrest
  obtain ⟨rfl, rfl⟩ := pure_eq_ok hpure
  exact runs_copies hcalls hown hleft hstep hcopy (Tame.trees_getD htame) fuel hcount
    (hs.addPin start) (henv.mono hle) hloop

end Semantics

end LemonScript
