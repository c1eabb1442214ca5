import LemonScript.Proofs.Semantics.Congruence
/-!
# Programs follow themselves

In linked states a tree does the same on both sides. So does a call of a function, however its
memory is laid out; this does not depend on what is pinned on the left.
-/

namespace LemonScript

namespace Semantics

variable {σ : Setting} {call call' : Calls}

section Expressions

variable {ρ : Links} {env env' : Env}

theorem follows_eval_self (hcalls : Respects σ call call') (henv : EnvRel ρ env env') (n : Node) :
    Follows σ ρ (eval call env n) (eval call' env' n) ValueRel := by
  induction n with
  | h n ih =>
  cases n with
  | var v => exact follows_var henv v
  | fn f => exact follows_fn henv f
  | _ =>
    have hself := follows_mapChildren (g := id) hcalls (by simp) (by simp) ih
    rwa [Node.mapChildren_id] at hself

theorem follows_initial {init init' : Node} (hmissing : init.isMissing → init'.isMissing)
    (h : Follows σ ρ (eval call env init) (eval call' env' init') ValueRel) :
    Follows σ ρ (initial call env init) (initial call' env' init') ValueRel := by
  cases init with
  | missing =>
    cases init' with
    | missing => exact .pure fun _ _ => .unset
    | _ => cases hmissing rfl
  | _ =>
    cases init' with
    | missing =>
      intro ρ₀ s s' t x hle hs hx
      obtain ⟨_, _, _, hstuck, _⟩ := h hle hs hx
      cases hstuck
    | _ => exact h

theorem follows_assignTo_self (hcalls : Respects σ call call') (henv : EnvRel ρ env env')
    (target source : Node) :
    Follows σ ρ (assignTo call env target source) (assignTo call' env' target source) Anything := by
  have hsource := follows_eval_self hcalls henv source
  cases target with
  | var v => exact follows_assignTo_var (follows_addressOf henv v.id) hsource
  | member array index _ =>
    exact follows_assignTo_member index (follows_eval_self hcalls henv array) hsource
  | property map key _ =>
    exact follows_assignTo_property (follows_eval_self hcalls henv map)
      (follows_eval_self hcalls henv key) hsource
  | _ => exact .stop

theorem follows_change_self (hcalls : Respects σ call call') (henv : EnvRel ρ env env') (n : Node) :
    Follows σ ρ (change call env n) (change call' env' n) Anything := by
  cases n with
  | binary left _ right =>
    cases left with
    | var v =>
      exact follows_change_compound (follows_addressOf henv v.id) (follows_eval_self hcalls henv right)
    | _ => exact .stop
  | unary _ operand =>
    cases operand with
    | var v => exact follows_change_unary (follows_addressOf henv v.id)
    | _ => exact .stop
  | _ => exact .stop

end Expressions

section Statements

variable {fuel : Nat}

section

variable (hcalls : Respects σ call call') (hcodes : ∀ code env, σ.codes code env code)
include hcalls hcodes
set_option linter.unusedSectionVars false

mutual

theorem follows_exec_self (n : Node) {ρ : Links} {env env' : Env} (henv : EnvRel ρ env env') :
    Follows σ ρ (exec call fuel env n) (exec call' fuel env' n) ResultRel := by
  cases n with
  | varDecl _ _ init _ _ entity =>
    cases entity with
    | none => exact (follows_evaluated rfl (follows_eval_self hcalls henv _)).onward henv
    | some v => exact follows_varDecl henv v (follows_initial id (follows_eval_self hcalls henv init))
  | funDecl _ _ _ _ _ entity =>
    cases entity with
    | none => exact (follows_evaluated rfl (follows_eval_self hcalls henv _)).onward henv
    | some f => exact follows_funDecl henv f fun _ => hcodes _ _
  | assign target source =>
    exact (follows_onward (follows_assignTo_self hcalls henv target source)).onward henv
  | binary left op right type =>
    cases hop : isEvaluated (.binary left op right type) with
    | true => exact (follows_evaluated hop (follows_eval_self hcalls henv _)).onward henv
    | false =>
      cases op <;> first
        | exact (follows_onward (follows_change_self hcalls henv _)).onward henv
        | cases hop
  | unary op operand leading type =>
    cases hop : isEvaluated (.unary op operand leading type) with
    | true => exact (follows_evaluated hop (follows_eval_self hcalls henv _)).onward henv
    | false =>
      cases op <;> first
        | exact (follows_onward (follows_change_self hcalls henv _)).onward henv
        | cases hop
  | ifElse cases otherwise =>
    exact follows_dropped
      (follows_execArms_self cases henv
        (follows_execBlock_self otherwise henv)) henv
  | switch scrutinee cases otherwise =>
    exact follows_switch henv (follows_eval_self hcalls henv scrutinee) fun _ _ _ hle hx =>
      follows_execCases_self cases (henv.mono hle) hx
        (follows_execBlock_self otherwise (henv.mono hle))
  | whileLoop condition body =>
    exact follows_whileLoop henv (follows_eval_self hcalls henv condition)
      (follows_execBlock_self body henv)
  | forLoop _ init condition step body entity =>
    cases entity with
    | none => exact (follows_evaluated rfl (follows_eval_self hcalls henv _)).onward henv
    | some v =>
      exact follows_forLoop henv v (follows_eval_self hcalls henv init)
        (fun _ _ _ _ hinner => follows_eval_self hcalls hinner condition)
        (fun _ _ _ _ hinner => follows_change_self hcalls hinner step)
        (fun _ _ _ _ hinner => follows_execBlock_self body hinner)
  | giveBack e => exact follows_giveBack henv (follows_eval_self hcalls henv e)
  | giveBackNothing => exact .pure fun _ hle => ⟨.back .unset, henv.mono hle⟩
  | chop => exact .pure fun _ hle => ⟨.chop, henv.mono hle⟩
  | next => exact .pure fun _ hle => ⟨.next, henv.mono hle⟩
  | _ => exact (follows_evaluated rfl (follows_eval_self hcalls henv _)).onward henv

theorem follows_execAll_self :
    ∀ (ns : List Node) {ρ : Links} {env env' : Env}, EnvRel ρ env env' →
      Follows σ ρ (execAll call fuel env ns) (execAll call' fuel env' ns) ResultRel
  | [], _, _, _, henv => .pure fun _ hle => ⟨.onward, henv.mono hle⟩
  | n :: ns, _, _, _, henv =>
    (follows_exec_self n henv).bind fun _ _ _ _ hr =>
      follows_thenRun hr fun henv => follows_execAll_self ns henv

theorem follows_execBlock_self :
    ∀ (ns : Option (List Node)) {ρ : Links} {env env' : Env}, EnvRel ρ env env' →
      Follows σ ρ (execBlock call fuel env ns) (execBlock call' fuel env' ns) ResultRel
  | none, _, _, _, henv => .pure fun _ hle => ⟨.onward, henv.mono hle⟩
  | some ns, _, _, _, henv => follows_execAll_self ns henv

theorem follows_execArms_self :
    ∀ (arms : List (Arm Node)) {ρ : Links} {env env' : Env} {otherwise otherwise' : Run (Flow × Env)},
      EnvRel ρ env env' → Follows σ ρ otherwise otherwise' ResultRel →
      Follows σ ρ (execArms call fuel env otherwise arms) (execArms call' fuel env' otherwise' arms)
        ResultRel
  | [], _, _, _, _, _, _, hotherwise => hotherwise
  | ⟨guard, body⟩ :: rest, _, _, _, _, _, henv, hotherwise =>
    follows_execArms_cons (follows_eval_self hcalls henv guard)
      (follows_execBlock_self body henv)
      (follows_execArms_self rest henv hotherwise)

theorem follows_execCases_self :
    ∀ (arms : List (Arm Node)) {ρ : Links} {env env' : Env} {x x' : Value}
      {otherwise otherwise' : Run (Flow × Env)},
      EnvRel ρ env env' → ValueRel ρ x x' → Follows σ ρ otherwise otherwise' ResultRel →
      Follows σ ρ (execCases call fuel env x otherwise arms)
        (execCases call' fuel env' x' otherwise' arms) ResultRel
  | [], _, _, _, _, _, _, _, _, _, hotherwise => hotherwise
  | ⟨guard, body⟩ :: rest, _, _, _, _, _, _, _, henv, hx, hotherwise =>
    follows_execCases_cons hx (follows_eval_self hcalls henv guard)
      (follows_execBlock_self body henv)
      (follows_execCases_self rest henv hx hotherwise)

end

end

end Statements

/-! ### Calls -/

theorem follows_result {ρ : Links} {f f' : Flow} (h : FlowRel ρ f f') :
    Follows σ ρ (result f) (result f') ValueRel := by
  cases h with
  | onward => exact .pure fun _ _ => .unset
  | back hv => exact .pure fun _ hle => hv.mono hle
  | _ => exact .stop

theorem respects_callAt_succ {fuel : Nat}
    (h : ∀ {ρ code code' closed closed' xs xs'}, σ.codes code closed code' →
      EnvRel ρ closed closed' → List.Forall₂ (ValueRel ρ) xs xs' →
      Follows σ ρ (bindAll code.params xs closed >>= fun env =>
          execBlock (callAt fuel) fuel env code.body)
        (bindAll code'.params xs' closed' >>= fun env =>
          execBlock (callAt fuel) fuel env code'.body) ResultRel) :
    Respects σ (callAt (fuel + 1)) (callAt (fuel + 1)) := by
  intro ρ f f' xs xs' hf hxs
  cases hf with
  | library id => exact follows_libraryCall fuel id hxs
  | ref hab =>
    refine (follows_cellAt hab).bind ?_
    intro ρ₁ c c' hle hcell
    cases hcell with
    | closure _ hcode henv =>
      have hbody := h hcode henv (ValueRel.mono_all hle hxs)
      have hresult := hbody.bind fun _ _ _ _ hr => follows_result hr.1
      rw [bind_assoc, bind_assoc] at hresult
      exact hresult
    | _ => exact .stop
  | _ => exact .stop

theorem respects_same (pins : Address → Value → Prop) (fuel : Nat) :
    Respects ⟨Same, pins⟩ (callAt fuel) (callAt fuel) := by
  induction fuel with
  | zero =>
    intro ρ f f' xs xs' hf hxs
    exact .stop
  | succ fuel ih =>
    refine respects_callAt_succ ?_
    intro ρ code _ closed closed' xs xs' hcode henv hxs
    cases hcode
    refine (follows_bindAll code.params hxs henv).bind ?_
    intro ρ₁ _ _ _ henv'
    exact follows_execBlock_self ih (fun _ _ => rfl) code.body henv'

end Semantics

end LemonScript
