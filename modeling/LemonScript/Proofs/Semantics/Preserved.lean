import LemonScript.Proofs.Semantics.Unrolled
import LemonScript.Proofs.Simplify.WellFormed
/-!
# Simplified statements do the same

A block that is put in the place of the statement it belongs to leaves its declarations behind. This
does no harm because no two declarations of a program have the same number: what was known before is
still found.
-/

namespace LemonScript

namespace Semantics

open Simplify

variable {call call' : Calls} {env env' : Env} {fuel : Nat}

/-! ### What statements declare -/

/-- Environments that differ at some entities only. -/
def Agrees (ids : List Int) (env env' : Env) : Prop :=
  ∀ x, x ∉ ids → env'.lookup x = env.lookup x

/-- Entities that can still be declared. -/
structure Fresh (env : Env) (ids : List Int) : Prop where
  nodup : ids.Nodup
  apart : ∀ x ∈ ids, env.lookup x = none
  own : ∀ x ∈ ids, Library.isLibrary x = false

variable {ρ : Links} {s t : State} {r : Flow × Env} {σ : Setting}
variable {id : Int} {ids : List Int} {arms : List (Arm Node)} {otherwise : Option (List Node)}
  {step : Node} {c : Prop}

theorem lookup_of_ne {x : Int} (hne : x ≠ id) (a : Address) :
    List.lookup x ((id, a) :: env) = env.lookup x := by
  rw [List.lookup_cons, beq_false_of_ne hne]

namespace Agrees

variable {ids ids' : List Int} {env'' : Env}

theorem refl (ids : List Int) (env : Env) : Agrees ids env env := fun _ _ => rfl

theorem trans (h : Agrees ids env env') (h' : Agrees ids' env' env'') :
    Agrees (ids ++ ids') env env'' := by
  intro x hx
  rw [List.mem_append, not_or] at hx
  rw [h' x hx.2, h x hx.1]

theorem mono (h : Agrees ids env env') (hsub : ids ⊆ ids') : Agrees ids' env env' :=
  fun x hx => h x fun hmem => hx (hsub hmem)

theorem cons (id : Int) (a : Address) : Agrees [id] env ((id, a) :: env) := by
  intro x hx
  exact lookup_of_ne (by simpa using hx) a

end Agrees

namespace Fresh

variable {ids ids' : List Int}

theorem left (h : Fresh env (ids ++ ids')) : Fresh env ids where
  nodup := h.nodup.of_append_left
  apart x hx := h.apart x (List.mem_append_left _ hx)
  own x hx := h.own x (List.mem_append_left _ hx)

theorem after (h : Fresh env (ids ++ ids')) (hagrees : Agrees ids env env') : Fresh env' ids' where
  nodup := h.nodup.of_append_right
  apart x hx := by
    rw [hagrees x fun hmem => (List.nodup_append.mp h.nodup).2.2 x hmem x hx rfl]
    exact h.apart x (List.mem_append_right _ hx)
  own x hx := h.own x (List.mem_append_right _ hx)

theorem right (h : Fresh env (ids ++ ids')) : Fresh env ids' := h.after (.refl ids env)

theorem cons (h : Fresh env (id :: ids)) (a : Address) : Fresh ((id, a) :: env) ids :=
  (show Fresh env ([id] ++ ids) from h).after (.cons id a)

end Fresh

theorem EnvRel.of_agrees {inner : Env} (h : EnvRel ρ inner env') (hfresh : Fresh env ids)
    (hagrees : Agrees ids env inner) : EnvRel ρ env env' where
  lookup := by
    intro x a hx
    have hmem : x ∉ ids := by
      intro hmem
      rw [hfresh.apart x hmem] at hx
      cases hx
    exact h.lookup ((hagrees x hmem).trans hx)
  closed hb := h.closed hb

/-! ### Environments behind statements -/

def Keeps (env : Env) (m : Run (Flow × Env)) : Prop :=
  ∀ ⦃s t : State⦄ ⦃r : Flow × Env⦄, m s = .ok (r, t) → r.2 = env

theorem Keeps.pure (flow : Flow) : Keeps env (Pure.pure (flow, env)) := by
  intro s t r h
  obtain ⟨rfl, -⟩ := pure_eq_ok h
  rfl

theorem Keeps.bind {α : Type} {m : Run α} {f : α → Run (Flow × Env)} (h : ∀ x, Keeps env (f x)) :
    Keeps env (m >>= f) := by
  intro s t r hr
  obtain ⟨x, u, -, hx⟩ := bind_eq_ok hr
  exact h x hx

theorem exec_agrees {n : Node} (h : exec call fuel env n s = .ok (r, t)) :
    Agrees n.declared env r.2 := by
  have hkeeps : Keeps env (exec call fuel env n) → Agrees n.declared env r.2 := by
    intro hkeeps
    rw [hkeeps h]
    exact .refl _ _
  cases hn : isEvaluated n with
  | true =>
    rw [exec_of_isEvaluated hn] at hkeeps
    exact hkeeps (.bind fun _ => .pure _)
  | false =>
    cases n with
    | varDecl _ _ _ _ _ entity =>
      cases entity with
      | none => cases hn
      | some v =>
        simp only [exec] at h
        obtain ⟨x, u, -, hrest⟩ := bind_eq_ok h
        obtain ⟨a, u', -, hpure⟩ := bind_eq_ok hrest
        obtain ⟨rfl, -⟩ := pure_eq_ok hpure
        exact .cons v.id a
    | funDecl _ _ _ _ _ entity =>
      cases entity with
      | none => cases hn
      | some f =>
        simp only [exec] at h
        obtain ⟨inner, u, ha, hpure⟩ := bind_eq_ok h
        obtain ⟨rfl, -⟩ := pure_eq_ok hpure
        cases ha
        exact (Agrees.cons f.id _).mono (by simp [Node.declared])
    | forLoop _ _ _ _ _ entity =>
      cases entity with
      | none => cases hn
      | some v =>
        simp only [exec] at hkeeps
        exact hkeeps (.bind fun _ => .bind fun _ => .bind fun _ => .pure _)
    | assign | ifElse | whileLoop | giveBack =>
      simp only [exec] at hkeeps
      exact hkeeps (.bind fun _ => .pure _)
    | switch =>
      simp only [exec] at hkeeps
      exact hkeeps (.bind fun _ => .bind fun _ => .pure _)
    | giveBackNothing | chop | next =>
      simp only [exec] at hkeeps
      exact hkeeps (.pure _)
    | binary _ op =>
      cases op <;> exact hkeeps (.bind fun _ => .pure _)
    | unary op =>
      cases op <;> exact hkeeps (.bind fun _ => .pure _)
    | _ => cases hn

theorem execAll_agrees {ns : List Node} (h : execAll call fuel env ns s = .ok (r, t)) :
    Agrees (Node.declaredInAll ns) env r.2 := by
  induction ns generalizing env s with
  | nil =>
    obtain ⟨rfl, -⟩ := pure_eq_ok h
    exact .refl _ _
  | cons n ns ih =>
    obtain ⟨⟨flow, env₁⟩, u, hn, hrest⟩ := bind_eq_ok h
    have hfirst := exec_agrees hn
    cases flow with
    | onward => exact hfirst.trans (ih hrest)
    | _ =>
      obtain ⟨rfl, -⟩ := pure_eq_ok hrest
      exact hfirst.mono (List.subset_append_left _ _)

theorem execBlock_agrees {ns : Option (List Node)} (h : execBlock call fuel env ns s = .ok (r, t)) :
    Agrees (Node.declaredIn ns) env r.2 := by
  cases ns with
  | none =>
    obtain ⟨rfl, -⟩ := pure_eq_ok h
    exact .refl _ _
  | some ns => exact execAll_agrees h

theorem execArms_agrees
    (h : execArms call fuel env (execBlock call fuel env otherwise) arms s = .ok (r, t)) :
    Agrees (Node.declaredInArms arms ++ Node.declaredIn otherwise) env r.2 := by
  induction arms generalizing s with
  | nil => exact execBlock_agrees h
  | cons arm rest ih =>
    obtain ⟨guard, body⟩ := arm
    simp only [execArms] at h
    obtain ⟨b, u, -, hrest⟩ := bind_eq_ok h
    rw [Node.declaredInArms, List.append_assoc]
    cases b with
    | true => exact (execBlock_agrees hrest).mono (List.subset_append_left _ _)
    | false => exact (ih hrest).mono (List.subset_append_right _ _)

theorem bindAll_agrees {vs : List Value} (h : bindAll ids vs env s = .ok (env', t)) :
    Agrees ids env env' := by
  induction ids generalizing vs env s with
  | nil =>
    cases vs with
    | nil =>
      obtain ⟨rfl, -⟩ := pure_eq_ok h
      exact .refl _ _
    | cons => cases h
  | cons id ids ih =>
    cases vs with
    | nil => cases h
    | cons =>
      obtain ⟨a, u, -, hrest⟩ := bind_eq_ok h
      exact (Agrees.cons id a).trans (ih hrest)

/-! ### Statements -/

/-- The function with a simplified body, if its body can be simplified where it was declared. -/
structure Simplified (o : SimplifyOptions) (code : Code) (env : Env) (code' : Code) : Prop where
  params : code'.params = code.params
  body : code'.body = simplerBlock o code.body
  tame : Tame.Optional True code.body
  fresh : Fresh env (code.params ++ Node.declaredIn code.body)

/-- Functions stand for functions with simplified bodies. -/
def simplifying (o : SimplifyOptions) : Setting := ⟨Simplified o, noPins⟩

theorem follows_change_simpler (hcalls : Respects σ call call') (henv : EnvRel ρ env env')
    (h : Tame.Tree c step) :
    Follows σ ρ (change call env step) (change call' env' (simpler step)) Anything := by
  cases step with
  | binary left op =>
    cases left with
    | var v =>
      have hright := follows_simpler hcalls henv h.2
      cases op <;> first
        | exact follows_change_compound (follows_addressOf henv v.id) hright
        | exact .stop
    | _ => exact .stop
  | unary op operand leading type =>
    cases operand with
    | var v =>
      have hsimpler : simpler (.unary op (.var v) leading type) = .unary op (.var v) leading type := by
        cases op <;> rfl
      rw [hsimpler]
      exact follows_change_unary (follows_addressOf henv v.id)
    | _ => exact .stop
  | _ => exact .stop

theorem follows_never {condition : Run Bool} {body : Run Flow} {step : Run Unit}
    (h : Follows σ ρ condition (pure false) fun _ b b' => b = b') (fuel : Nat) :
    Follows σ ρ (loop condition body step fuel) (pure .onward) FlowRel := by
  cases fuel with
  | zero => exact .stop
  | succ =>
    refine h.bind_left ?_
    rintro ρ₁ _ _ rfl
    exact .pure fun _ _ => .onward

section Statements

variable {o : SimplifyOptions}

theorem follows_ifElse {cases : List (Arm Node)} {rest : Option (List Node)}
    (h : Follows σ ρ (execArms call fuel env (execBlock call fuel env otherwise) cases)
      (execArms call' fuel env' (execBlock call' fuel env' rest) arms) ResultRel)
    (hfresh : Fresh env (Node.declaredInArms cases ++ Node.declaredIn otherwise))
    (henv : EnvRel ρ env env') : Follows σ ρ (exec call fuel env (.ifElse cases otherwise))
      (execAll call' fuel env' ((if arms.isEmpty then rest else some [.ifElse arms rest]).getD []))
      ResultRel := by
  cases arms with
  | nil =>
    simp only [exec]
    rw [List.isEmpty_nil, if_pos rfl, ← execBlock_eq]
    refine (h.and_left fun hok => execArms_agrees hok).bind_done ?_
    rintro ρ₁ r r' _ ⟨hr, hagrees⟩
    exact .pure fun _ hle => ⟨hr.1.mono hle, (hr.2.of_agrees hfresh hagrees).mono hle⟩
  | cons =>
    refine follows_single ?_
    simp only [exec]
    exact follows_dropped h henv

theorem follows_simplerFor {m : Run (Flow × Env)} {name : String} {init condition : Node}
    {body : Option (List Node)} {v : Variable} (hsame : ∀ pins, Respects ⟨Same, pins⟩ call' call')
    (hown : Library.isLibrary v.id = false) (htame : Tame.Optional c body)
    (henv : EnvRel ρ env env')
    (h : Follows σ ρ m (exec call' fuel env' (.forLoop name init condition step body (some v)))
      ResultRel) :
    Follows σ ρ m (execAll call' fuel env' (simplerFor o name init condition step body (some v)))
      ResultRel := by
  unfold simplerFor
  split
  · next id values hunrolling =>
    obtain ⟨w, i, hw, hi, rfl, rfl, -, hcopy⟩ := of_unrolling? hunrolling
    cases hw
    refine h.trans (follows_unrolled hsame hown hi hcopy htame henv.self) ?_
    intro ρ₁ τ r r' r'' hr hr'
    exact hr.comp hr'
  · exact follows_single h

section

variable (hcalls : Respects (simplifying o) call call') (hsame : ∀ pins, Respects ⟨Same, pins⟩ call' call')
include hcalls hsame
set_option linter.unusedSectionVars false

mutual

/-- A statement does what the statements do that it is simplified to. -/
theorem follows_statement {n : Node} {ρ : Links} {env env' : Env} (htame : Tame.Tree True n)
    (hfresh : Fresh env n.declared) (henv : EnvRel ρ env env') :
    Follows (simplifying o) ρ (exec call fuel env n)
      (execAll call' fuel env' ((simplerStatement o n).getD [])) ResultRel := by
  cases n with
  | funDecl _ _ _ _ _ entity =>
    cases entity with
    | none => exact .of_ne_ok nofun
    | some f => exact follows_single (follows_funDecl henv f fun a => ⟨rfl, rfl, htame, hfresh.cons a⟩)
  | ifElse =>
    have hchain := follows_chain htame.1 hfresh.left henv
      (follows_block htame.2 hfresh.right henv)
    exact follows_ifElse hchain hfresh henv
  | whileLoop =>
    have hcondition := follows_simpler hcalls henv htame.1
    simp only [simplerStatement]
    split
    · next hfalse =>
      simp only [exec]
      refine (follows_never (follows_holds_literal hcondition hfalse) fuel).bind_left ?_
      intro ρ₁ flow hle hflow
      exact .pure fun _ hle' => ⟨hflow.mono hle', henv.mono (hle.trans hle')⟩
    · exact follows_single
        (follows_whileLoop henv hcondition (follows_block htame.2 hfresh henv))
  | forLoop _ _ _ _ _ entity =>
    cases entity with
    | none => exact .of_ne_ok nofun
    | some v =>
      refine follows_simplerFor hsame (hfresh.own v.id List.mem_cons_self)
        (Tame.optional_block o htame.2.2.2) henv ?_
      refine follows_forLoop henv v (follows_simpler hcalls henv htame.1) ?_ ?_ ?_
      · intro ρ₁ a b _ hinner
        exact follows_simpler hcalls hinner htame.2.1
      · intro ρ₁ a b _ hinner
        exact follows_change_simpler hcalls hinner htame.2.2.1
      · intro ρ₁ a b _ hinner
        exact follows_block htame.2.2.2 (hfresh.cons a) hinner
  | switch =>
    exact follows_single <| follows_switch henv (follows_simpler hcalls henv htame.1) fun _ _ _ hle hx =>
      follows_cases htame.2.1 hfresh.left (henv.mono hle) hx
        (follows_block htame.2.2 hfresh.right (henv.mono hle))
  | _ => exact follows_plain hcalls henv htame rfl

theorem follows_statements :
    ∀ {l : List Node} {ρ : Links} {env env' : Env}, Tame.Trees True l →
      Fresh env (Node.declaredInAll l) → EnvRel ρ env env' →
      Follows (simplifying o) ρ (execAll call fuel env l)
        (execAll call' fuel env' (simplerStatements o l)) ResultRel
  | [], _, _, _, _, _, henv => .pure fun _ hle => ⟨.onward, henv.mono hle⟩
  | n :: ns, _, _, _, htame, hfresh, henv => by
    rw [execAll, simplerStatements, execAll_append]
    have hn := follows_statement htame.1 hfresh.left henv
    refine (hn.and_left fun h => exec_agrees h).bind ?_
    rintro ρ₁ r r' hle ⟨hr, hagrees⟩
    exact follows_thenRun hr fun henv' =>
      follows_statements htame.2 (hfresh.after hagrees) henv'

theorem follows_block :
    ∀ {l : Option (List Node)} {ρ : Links} {env env' : Env}, Tame.Optional True l →
      Fresh env (Node.declaredIn l) → EnvRel ρ env env' →
      Follows (simplifying o) ρ (execBlock call fuel env l)
        (execBlock call' fuel env' (simplerBlock o l)) ResultRel
  | none, _, _, _, _, _, henv => .pure fun _ hle => ⟨.onward, henv.mono hle⟩
  | some ns, _, _, _, htame, hfresh, henv => follows_statements (l := ns) htame hfresh henv

theorem follows_chain :
    ∀ {l : List (Arm Node)} {ρ : Links} {env env' : Env} {otherwise : Run (Flow × Env)}
      {rest : Option (List Node)}, Tame.Arms True l → Fresh env (Node.declaredInArms l) →
      EnvRel ρ env env' →
      Follows (simplifying o) ρ otherwise (execBlock call' fuel env' rest) ResultRel →
      Follows (simplifying o) ρ (execArms call fuel env otherwise l)
        (execArms call' fuel env' (execBlock call' fuel env' ((simplerChain o l).always.getD rest))
          (simplerChain o l).arms) ResultRel
  | [], _, _, _, _, _, _, _, _, hotherwise => hotherwise
  | ⟨guard, body⟩ :: rest, _, _, _, _, _, htame, hfresh, henv, hotherwise => by
    have hguard := follows_simpler hcalls henv htame.1
    have hbody := follows_block htame.2.1 hfresh.left henv
    have hrest := follows_chain htame.2.2 hfresh.right henv hotherwise
    unfold simplerChain
    split
    · next htrue =>
      simp only [execArms]
      refine (follows_holds_literal hguard htrue).bind_left ?_
      rintro ρ₁ _ hle rfl
      exact hbody.mono hle
    split
    · next hfalse =>
      rw [execArms]
      refine (follows_holds_literal hguard hfalse).bind_left ?_
      rintro ρ₁ _ hle rfl
      exact hrest.mono hle
    · exact follows_execArms_cons hguard hbody hrest

theorem follows_cases :
    ∀ {l : List (Arm Node)} {ρ : Links} {env env' : Env} {x x' : Value}
      {otherwise otherwise' : Run (Flow × Env)}, Tame.Arms True l →
      Fresh env (Node.declaredInArms l) → EnvRel ρ env env' → ValueRel ρ x x' →
      Follows (simplifying o) ρ otherwise otherwise' ResultRel →
      Follows (simplifying o) ρ (execCases call fuel env x otherwise l)
        (execCases call' fuel env' x' otherwise' (simplerCases o l)) ResultRel
  | [], _, _, _, _, _, _, _, _, _, _, _, hotherwise => hotherwise
  | ⟨_, _⟩ :: _, _, _, _, _, _, _, _, htame, hfresh, henv, hx, hotherwise =>
    follows_execCases_cons hx (follows_simpler hcalls henv htame.1)
      (follows_block htame.2.1 hfresh.left henv)
      (follows_cases htame.2.2 hfresh.right henv hx hotherwise)

end

end

end Statements

/-! ### Calls and programs -/

theorem respects_simplified (o : SimplifyOptions) (fuel : Nat) :
    Respects (simplifying o) (callAt fuel) (callAt fuel) := by
  induction fuel with
  | zero =>
    intro ρ f f' xs xs' hf hxs
    exact .stop
  | succ fuel ih =>
    refine respects_callAt_succ ?_
    intro ρ code code' closed closed' xs xs' hcode henv hxs
    rw [hcode.params, hcode.body]
    refine ((follows_bindAll code.params hxs henv).and_left fun h => bindAll_agrees h).bind ?_
    rintro ρ₁ env env' _ ⟨henv', hagrees⟩
    exact follows_block ih (fun pins => respects_same pins fuel) hcode.tame
      (hcode.fresh.after hagrees) henv'

end Semantics

end LemonScript
