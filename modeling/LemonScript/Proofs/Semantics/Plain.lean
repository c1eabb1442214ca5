import LemonScript.Proofs.Semantics.Reflexive
import LemonScript.Proofs.Semantics.Value
/-!
# Simplified statements without blocks

A compound assignment does what the plain one does that stands for it, and an assignment of a
variable to itself does nothing.
-/

namespace LemonScript

namespace Semantics

open Simplify

variable {σ : Setting} {ρ : Links} {call call' : Calls} {env env' : Env}

/-! ### Assignments -/

variable {α β : Type} {v : Variable} {c : Prop} {fuel' : Nat}
variable {m : Run α} {m' : Run β} {P : Links → α → β → Prop} {op : BinaryOp}
  {right target source source' : Node} {type : Ty}

theorem Follows.of_run {m₀ : Run α} (h : Follows σ ρ m₀ m' P)
    (hrun : ∀ s t x, m s = .ok (x, t) → m₀ s = .ok (x, t)) : Follows σ ρ m m' P :=
  fun _ _ _ _ _ hle hs hm => h hle hs (hrun _ _ _ hm)

theorem Follows.idle (h : Follows σ ρ m m' P) (hidle : ∀ s t x, m' s = .ok (x, t) → t = s) :
    Follows σ ρ m (Pure.pure () : Run Unit) Anything := by
  intro ρ₀ s s' t x hle hs hm
  obtain ⟨y, t', ρ₁, hm', hle', ht, -⟩ := h hle hs hm
  obtain rfl := hidle s' t' y hm'
  exact ⟨(), t', ρ₁, rfl, hle', ht, trivial⟩

theorem addressOf_cases (env : Env) (x : Int) : addressOf env x = stop .stuck ∨
      Library.isLibrary x = false ∧ ∃ a, env.lookup x = some a ∧ addressOf env x = pure a := by
  unfold addressOf
  cases hlibrary : Library.isLibrary x with
  | true => exact .inl rfl
  | false =>
    cases hx : env.lookup x with
    | none => exact .inl rfl
    | some a => exact .inr ⟨rfl, a, rfl, rfl⟩

theorem set_cell {xs : List α} {a : Address} {c : α} (h : xs[a]? = some c) : xs.set a c = xs := by
  obtain ⟨ha, rfl⟩ := List.getElem?_eq_some_iff.mp h
  exact List.set_getElem_self ha

theorem stop_bind_ne_ok {reason : Stop} {f : α → Run β} (s t : State) (y : β) :
    ((stop reason : Run α) >>= f) s ≠ .ok (y, t) := by
  intro h
  cases h

theorem eval_var (hlibrary : Library.isLibrary v.id = false) :
    eval call env (.var v) = (addressOf env v.id >>= readVar) := by
  have hpi : (v.id == Library.pi.id) = false := by
    by_contra h
    rw [Bool.not_eq_false] at h
    rw [eq_of_beq h] at hlibrary
    cases hlibrary
  simp only [eval, hpi]
  rfl

def compound : BinaryOp → BinaryOp
  | .addAssign => .add
  | _ => .sub

theorem change_run (s t : State) (x : Unit) (hop : op = .addAssign ∨ op = .subAssign)
    (h : change call env (.binary (.var v) op right type) s = .ok (x, t)) :
    assignTo call env (.var v) (.binary (.var v) (compound op) right type) s = .ok (x, t) := by
  have hchange : change call env (.binary (.var v) op right type) = (do
      let a ← addressOf env v.id
      let x ← readVar a
      let y ← eval call env right
      writeVar a (← orFault (operate (compound op) x y))) := by
    rcases hop with rfl | rfl <;> rfl
  have hlogic : isLogic (compound op) = false := by
    rcases hop with rfl | rfl <;> rfl
  rw [hchange] at h
  rcases addressOf_cases env v.id with hstop | ⟨hlibrary, a, -, ha⟩
  · rw [hstop] at h
    exact absurd h (stop_bind_ne_ok s t x)
  · rw [ha, pure_bind] at h
    simp only [assignTo, eval_strict hlogic, eval_var hlibrary, ha, bind_assoc, pure_bind]
    exact h

theorem assignTo_self {v' : Variable} (hid : v'.id = v.id) (s t : State) (x : Unit)
    (h : assignTo call env (.var v) (.var v') s = .ok (x, t)) : t = s := by
  obtain ⟨y, u, hread, hrest⟩ := bind_eq_ok h
  obtain ⟨a, u', ha, hwrite⟩ := bind_eq_ok hrest
  rcases addressOf_cases env v.id with hstop | ⟨hlibrary, b, -, hb⟩
  · rw [hstop] at ha
    cases ha
  · rw [hb] at ha
    obtain ⟨rfl, rfl⟩ := pure_eq_ok ha
    rw [eval_var (hid ▸ hlibrary), hid, hb, pure_bind] at hread
    obtain ⟨hcell, rfl⟩ := readVar_eq_ok hread
    rw [writeVar_eq_ok hwrite, set_cell hcell]

theorem follows_assignTo (hcalls : Respects σ call call') (henv : EnvRel ρ env env')
    (htarget : Tame.Tree c target)
    (hsource : Follows σ ρ (eval call env source) (eval call' env' source') ValueRel) :
    Follows σ ρ (assignTo call env target source) (assignTo call' env' (simpler target) source')
      Anything := by
  cases target with
  | var v => exact follows_assignTo_var (follows_addressOf henv v.id) hsource
  | member array index _ =>
    exact follows_assignTo_member index (follows_simpler hcalls henv (n := array) htarget) hsource
  | property =>
    exact follows_assignTo_property (follows_simpler hcalls henv htarget.1)
      (follows_simpler hcalls henv htarget.2) hsource
  | _ => exact .stop

theorem follows_assign (hcalls : Respects σ call call') (henv : EnvRel ρ env env')
    (htarget : Tame.Tree c target)
    (hsource : Follows σ ρ (eval call env source) (eval call' env' source') ValueRel) :
    Follows σ ρ (do assignTo call env target source; return (.onward, env))
      (execAll call' fuel' env' ((assign (simpler target) source').getD [])) ResultRel := by
  have hassign := follows_assignTo hcalls henv htarget hsource
  unfold assign
  split
  · next hsame =>
    -- Only a variable can be assigned to, so the two sides are one variable.
    cases target with
    | var v =>
      cases source' with
      | var v' =>
        exact (hassign.idle (assignTo_self (eq_of_beq hsame))).bind_left fun ρ₁ _ hle _ =>
          .pure fun _ hle' => ⟨.onward, henv.mono (hle.trans hle')⟩
      | _ => cases hsame
    | member | property => cases source' <;> cases hsame
    | _ => exact .of_ne_ok (stop_bind_ne_ok)
  · rw [Option.getD_some, execAll_singleton]
    exact (follows_onward hassign).onward henv

/-! ### Plain statements -/

theorem follows_compound {left : Node} (hop : op = .addAssign ∨ op = .subAssign)
    (hcalls : Respects σ call call') (henv : EnvRel ρ env env') (hright : Tame.Tree c right) :
    Follows σ ρ (do change call env (.binary left op right type); return (.onward, env))
      (execAll call' fuel' env'
        ((assign (simpler left) (combine (simpler left) (compound op) (simpler right) type)).getD []))
      ResultRel := by
  cases left with
  | var v =>
    have htree : Tame.Tree c (.binary (.var v) (compound op) right type) := by
      refine ⟨trivial, hright.mono fun hc => ⟨hc, ?_⟩⟩
      rcases hop with rfl | rfl <;> rfl
    have hsimpler : simpler (.binary (.var v) (compound op) right type) =
        combine (simpler (.var v)) (compound op) (simpler right) type := by
      rcases hop with rfl | rfl <;> rfl
    have hsource := follows_simpler hcalls henv htree
    rw [hsimpler] at hsource
    have htarget : Tame.Tree c (.var v) := trivial
    refine (follows_assign hcalls henv htarget hsource).of_run ?_
    intro s t r h
    obtain ⟨x, u, hx, hr⟩ := bind_eq_ok h
    rw [bind_of_ok (change_run s u x hop hx)]
    exact hr
  | _ => exact .of_ne_ok stop_bind_ne_ok

theorem follows_plain {fuel : Nat} {n : Node} (hcalls : Respects σ call call')
    (henv : EnvRel ρ env env') (h : Tame.Tree c n) (hplain : isPlain n) :
    Follows σ ρ (exec call fuel env n) (execAll call' fuel' env' ((plain n).getD [])) ResultRel := by
  cases n with
  | varDecl _ _ init _ _ entity =>
    refine follows_single ?_
    cases entity with
    | none => exact (follows_evaluated rfl .stop).onward henv
    | some v =>
      refine follows_varDecl henv v (follows_initial ?_ (follows_simpler hcalls henv (n := init) h))
      intro hmissing
      cases init <;> first | rfl | cases hmissing
  | assign =>
    simp only [exec]
    exact follows_assign hcalls henv h.1 (follows_simpler hcalls henv h.2)
  | giveBack e =>
    exact follows_single (follows_giveBack henv (follows_simpler hcalls henv (n := e) h))
  | binary left op right type =>
    cases hop : isEvaluated (.binary left op right type) with
    | true =>
      have hplain : plain (.binary left op right type) = some [simpler (.binary left op right type)] := by
        cases op <;> first | rfl | cases hop
      rw [hplain]
      exact follows_single ((follows_evaluated hop (follows_simpler hcalls henv h)).onward henv)
    | false =>
      have hright := h.2.mono And.left
      cases op with
      | addAssign => exact follows_compound (.inl rfl) hcalls henv hright
      | subAssign => exact follows_compound (.inr rfl) hcalls henv hright
      | _ => cases hop
  | unary op operand leading type =>
    refine follows_single ?_
    cases hop : isEvaluated (.unary op operand leading type) with
    | true => exact (follows_evaluated hop (follows_simpler hcalls henv h)).onward henv
    | false =>
      cases operand with
      | var v =>
        cases op with
        | increment | decrement => 
          exact (follows_onward (follows_change_unary (follows_addressOf henv v.id))).onward henv
        | _ => cases hop
      | _ =>
        cases op with
        | increment | decrement => exact .of_ne_ok stop_bind_ne_ok
        | _ => cases hop
  | giveBackNothing => exact follows_single (.pure fun _ hle => ⟨.back .unset, henv.mono hle⟩)
  | chop => exact follows_single (.pure fun _ hle => ⟨.chop, henv.mono hle⟩)
  | next => exact follows_single (.pure fun _ hle => ⟨.next, henv.mono hle⟩)
  | funDecl | ifElse | whileLoop | forLoop | switch => cases hplain
  | _ => exact follows_single ((follows_evaluated rfl (follows_simpler hcalls henv h)).onward henv)

end Semantics

end LemonScript
