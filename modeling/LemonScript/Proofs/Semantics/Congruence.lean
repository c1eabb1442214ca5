import LemonScript.Proofs.Semantics.Follows
import LemonScript.Proofs.Simplify.Combine
/-!
# Trees whose parts follow each other

If the parts of a tree follow the parts of another one, then the trees do. What a function call does
is left open: it is enough that calls of functions that stand for each other follow each other.
-/

namespace LemonScript

namespace Semantics

/-- Calls of related functions with related arguments follow each other. -/
def Respects (σ : Setting) (call call' : Calls) : Prop :=
  ∀ {ρ : Links} {f f' : Value} {xs xs' : List Value}, ValueRel ρ f f' →
    List.Forall₂ (ValueRel ρ) xs xs' → Follows σ ρ (call f xs) (call' f' xs') ValueRel

variable {σ : Setting} {ρ : Links} {call call' : Calls} {env env' : Env}

/-! ### Expressions -/

variable {op : BinaryOp} {condition condition' n : Node} {type type' : Ty} {m : Run (Flow × Env)}
variable {leading leading' : Bool} {array array' map map' n' : Node} {f f' : Flow} {τ : Links}
  {r r' : Flow × Env} {fuel : Nat}

section Expressions

variable {left left' right right' key key' : Node} {type type' : Ty}

-- the equations of the evaluator are put up once, before the proofs that share them
attribute [local simp] eval evalAll evalOptional evalEntries

theorem follows_var (henv : EnvRel ρ env env') (v : Variable) :
    Follows σ ρ (eval call env (.var v)) (eval call' env' (.var v)) ValueRel := by
  simp only [eval]
  split
  · exact .pure fun _ _ => .float _
  · exact (follows_addressOf henv v.id).bind fun _ _ _ _ hab => follows_readVar hab

theorem follows_fn (henv : EnvRel ρ env env') (f : Function) :
    Follows σ ρ (eval call env (.fn f)) (eval call' env' (.fn f)) ValueRel := by
  simp only [eval]
  split
  · exact .pure fun _ _ => .library _
  · exact (follows_addressOf henv f.id).bind fun _ _ _ _ hab => follows_functionAt hab

theorem eval_strict (hop : isLogic op = false) :
    eval call env (.binary left op right type) = (do
      let x ← eval call env left
      let y ← eval call env right
      orFault (operate op x y)) := by
  cases op <;> first | rfl | cases hop

theorem follows_holds
    (h : Follows σ ρ (eval call env condition) (eval call' env' condition') ValueRel) :
    Follows σ ρ (holds call env condition) (holds call' env' condition') (fun _ b b' => b = b') :=
  h.bind fun _ _ _ _ hx => follows_truth hx

theorem follows_bool {m m' : Run Bool} (h : Follows σ ρ m m' fun _ b b' => b = b') :
    Follows σ ρ (do return .bool (← m)) (do return .bool (← m')) ValueRel := by
  refine h.bind ?_
  rintro ρ' b _ _ rfl
  exact .pure fun _ _ => .bool b

theorem eval_logic (hop : isLogic op) : eval call env (.binary left op right type) = (do
      let b ← holds call env left
      if b = decides op then return .bool (← holds call env right) else return .bool b) := by
  cases op with
  | and | or =>
    simp only [eval, holds, bind_assoc]
    refine bind_congr fun x => bind_congr fun b => ?_
    cases b <;> rfl
  | _ => cases hop

theorem follows_binary (op : BinaryOp)
    (hleft : Follows σ ρ (eval call env left) (eval call' env' left') ValueRel)
    (hright : Follows σ ρ (eval call env right) (eval call' env' right') ValueRel) :
    Follows σ ρ (eval call env (.binary left op right type))
      (eval call' env' (.binary left' op right' type')) ValueRel := by
  cases hop : isLogic op with
  | false =>
    rw [eval_strict hop, eval_strict hop]
    refine hleft.bind ?_
    intro ρ₁ x x' hle hx
    refine (hright.mono hle).bind ?_
    intro ρ₂ y y' hle' hy
    exact follows_operate op (hx.mono hle') hy
  | true =>
    rw [eval_logic hop, eval_logic hop]
    refine (follows_holds hleft).bind ?_
    rintro ρ' b _ hle rfl
    split
    · exact follows_bool (follows_holds (hright.mono hle))
    · exact .pure fun _ _ => .bool b

theorem follows_unary (op : UnaryOp) {operand operand' : Node}
    (h : Follows σ ρ (eval call env operand) (eval call' env' operand') ValueRel) :
    Follows σ ρ (eval call env (.unary op operand leading type))
      (eval call' env' (.unary op operand' leading' type')) ValueRel := by
  simp only [eval]
  exact h.bind fun _ _ _ _ hx => follows_operateUnary op hx

theorem follows_call (hcalls : Respects σ call call') {callee callee' : Node}
    {args args' : Option (List Node)}
    (hcallee : Follows σ ρ (eval call env callee) (eval call' env' callee') ValueRel)
    (hargs : Follows σ ρ (evalOptional call env args) (evalOptional call' env' args')
      fun ρ' => List.Forall₂ (ValueRel ρ')) :
    Follows σ ρ (eval call env (.call callee args type)) (eval call' env' (.call callee' args' type'))
      ValueRel := by
  simp only [eval]
  refine hcallee.bind ?_
  intro ρ₁ f f' hle hf
  refine (hargs.mono hle).bind ?_
  intro ρ₂ xs xs' hle' hxs
  exact hcalls (hf.mono hle') hxs

theorem follows_arrayLit {elements elements' : Option (List Node)}
    (h : Follows σ ρ (evalOptional call env elements) (evalOptional call' env' elements')
      fun ρ' => List.Forall₂ (ValueRel ρ')) : Follows σ ρ (eval call env (.arrayLit elements type))
      (eval call' env' (.arrayLit elements' type')) ValueRel := by
  simp only [eval]
  refine h.bind ?_
  intro ρ₁ xs xs' _ hxs
  refine (follows_allocate (.array hxs)).bind ?_
  intro ρ₂ a b _ hab
  exact .pure fun _ hle => .ref (hle.1 a b hab)

theorem follows_mapLit {entries entries' : List (Entry Node)}
    (h : Follows σ ρ (evalEntries call env entries) (evalEntries call' env' entries')
      fun ρ' => List.Forall₂ (EntryRel ρ')) :
    Follows σ ρ (eval call env (.mapLit entries type)) (eval call' env' (.mapLit entries' type'))
      ValueRel := by
  simp only [eval]
  refine h.bind ?_
  intro ρ₁ es es' _ hes
  refine .of_oneToOne ?_
  intro ρ₂ hle hone
  refine (follows_allocate (.map (forall₂_mapOf hone (hes.imp fun _ _ => EntryRel.mono hle)))).bind ?_
  intro ρ₃ a b _ hab
  exact .pure fun _ hle => .ref (hle.1 a b hab)

theorem follows_member (index : Option Int)
    (h : Follows σ ρ (eval call env array) (eval call' env' array') ValueRel) :
    Follows σ ρ (eval call env (.member array index type)) (eval call' env' (.member array' index type'))
      ValueRel := by
  cases index with
  | none => exact .stop
  | some i =>
    simp only [eval]
    exact h.bind fun _ _ _ _ hx => follows_elementOf hx i

theorem follows_property (hmap : Follows σ ρ (eval call env map) (eval call' env' map') ValueRel)
    (hkey : Follows σ ρ (eval call env key) (eval call' env' key') ValueRel) :
    Follows σ ρ (eval call env (.property map key type)) (eval call' env' (.property map' key' type'))
      ValueRel := by
  simp only [eval]
  refine hmap.bind ?_
  intro ρ₁ x x' hle hx
  refine (hkey.mono hle).bind ?_
  intro ρ₂ k k' hle' hk
  exact follows_entryOf (hx.mono hle') hk

section Children

variable {g : Node → Node}

theorem follows_evalAll {ns : List Node}
    (h : ∀ n ∈ ns, Follows σ ρ (eval call env n) (eval call' env' (g n)) ValueRel) :
    Follows σ ρ (evalAll call env ns) (evalAll call' env' (ns.map g))
      fun ρ' => List.Forall₂ (ValueRel ρ') := by
  induction ns with
  | nil => exact .pure fun _ _ => .nil
  | cons n ns ih =>
    obtain ⟨hn, hns⟩ := List.forall_mem_cons.mp h
    simp only [List.map_cons, evalAll]
    refine hn.bind ?_
    intro ρ₁ x x' hle hx
    refine ((ih hns).mono hle).bind ?_
    intro ρ₂ xs xs' hle' hxs
    exact .pure fun _ hle'' => .cons (hx.mono (hle'.trans hle'')) (ValueRel.mono_all hle'' hxs)

theorem follows_evalOptional {ns : Option (List Node)}
    (h : ∀ n ∈ ns.getD [], Follows σ ρ (eval call env n) (eval call' env' (g n)) ValueRel) :
    Follows σ ρ (evalOptional call env ns) (evalOptional call' env' (ns.map (List.map g)))
      fun ρ' => List.Forall₂ (ValueRel ρ') := by
  cases ns with
  | none => exact .pure fun _ _ => .nil
  | some ns => exact follows_evalAll h

theorem follows_evalEntries {es : List (Entry Node)}
    (h : ∀ n ∈ es.flatMap Entry.children, Follows σ ρ (eval call env n) (eval call' env' (g n)) ValueRel) :
    Follows σ ρ (evalEntries call env es) (evalEntries call' env' (es.map fun e => ⟨g e.key, g e.value⟩))
      fun ρ' => List.Forall₂ (EntryRel ρ') := by
  induction es with
  | nil => exact .pure fun _ _ => .nil
  | cons e es ih =>
    obtain ⟨he, hes⟩ := List.forall_mem_append.mp h
    simp only [List.map_cons, evalEntries]
    refine (he e.key (.head _)).bind ?_
    intro ρ₁ k k' hle₁ hk
    refine ((he e.value (.tail _ (.head _))).mono hle₁).bind ?_
    intro ρ₂ x x' hle₂ hx
    refine ((ih hes).mono (hle₁.trans hle₂)).bind ?_
    intro ρ₃ es es' hle₃ hes
    refine .pure fun _ hle => .cons ⟨hk.mono ?_, hx.mono ?_⟩ (hes.imp fun _ _ => EntryRel.mono hle)
    · exact hle₂.trans (hle₃.trans hle)
    · exact hle₃.trans hle

/-- An expression that is no name follows as soon as its children do. -/
theorem follows_mapChildren (hcalls : Respects σ call call') (hvar : ∀ v, n ≠ .var v) (hfn : ∀ f, n ≠ .fn f)
    (h : ∀ c ∈ n.children, Follows σ ρ (eval call env c) (eval call' env' (g c)) ValueRel) :
    Follows σ ρ (eval call env n) (eval call' env' (n.mapChildren g)) ValueRel := by
  cases n with
  | var v => exact absurd rfl (hvar v)
  | fn f => exact absurd rfl (hfn f)
  | intLit n => exact .pure fun _ _ => .int n
  | floatLit x => exact .pure fun _ _ => .float x
  | stringLit text => exact .pure fun _ _ => .string text
  | boolLit _ b => exact .pure fun _ _ => .bool b
  | binary left op right => exact follows_binary op (h left (.head _)) (h right (.tail _ (.head _)))
  | unary op operand => exact follows_unary op (h operand (.head _))
  | call =>
    obtain ⟨hcallee, hargs⟩ := List.forall_mem_cons.mp h
    exact follows_call hcalls hcallee (follows_evalOptional hargs)
  | arrayLit => exact follows_arrayLit (follows_evalOptional h)
  | mapLit => exact follows_mapLit (follows_evalEntries h)
  | member array index => exact follows_member index (h array (.head _))
  | property map key => exact follows_property (h map (.head _)) (h key (.tail _ (.head _)))
  | _ => exact .stop

end Children

end Expressions

/-! ### Assignments -/

section Assignments

variable {source source' : Node}
variable {v : Variable}

theorem follows_assignTo_var
    (haddress : Follows σ ρ (addressOf env v.id) (addressOf env' v.id) fun ρ' a b => ρ'.rel a b)
    (h : Follows σ ρ (eval call env source) (eval call' env' source') ValueRel) :
    Follows σ ρ (assignTo call env (.var v) source) (assignTo call' env' (.var v) source') Anything := by
  refine h.bind ?_
  intro ρ₁ y y' hle hy
  refine (haddress.mono hle).bind ?_
  intro ρ₂ a b hle' hab
  exact follows_writeVar hab (hy.mono hle')

theorem follows_assignTo_member (index : Option Int)
    (harray : Follows σ ρ (eval call env array) (eval call' env' array') ValueRel)
    (h : Follows σ ρ (eval call env source) (eval call' env' source') ValueRel) :
    Follows σ ρ (assignTo call env (.member array index type) source)
      (assignTo call' env' (.member array' index type') source') Anything := by
  cases index with
  | none => exact .stop
  | some i =>
    refine harray.bind ?_
    intro ρ₁ x x' hle hx
    refine (h.mono hle).bind ?_
    intro ρ₂ y y' hle' hy
    exact follows_setElement (hx.mono hle') i hy

theorem follows_assignTo_property {key key' : Node}
    (hmap : Follows σ ρ (eval call env map) (eval call' env' map') ValueRel)
    (hkey : Follows σ ρ (eval call env key) (eval call' env' key') ValueRel)
    (h : Follows σ ρ (eval call env source) (eval call' env' source') ValueRel) :
    Follows σ ρ (assignTo call env (.property map key type) source)
      (assignTo call' env' (.property map' key' type') source') Anything := by
  refine hmap.bind ?_
  intro ρ₁ x x' hle₁ hx
  refine (hkey.mono hle₁).bind ?_
  intro ρ₂ k k' hle₂ hk
  refine (h.mono (hle₁.trans hle₂)).bind ?_
  intro ρ₃ y y' hle₃ hy
  exact follows_setEntry (hx.mono (hle₂.trans hle₃)) (hk.mono hle₃) hy

theorem follows_change_compound {right right' : Node}
    (haddress : Follows σ ρ (addressOf env v.id) (addressOf env' v.id) fun ρ' a b => ρ'.rel a b)
    (h : Follows σ ρ (eval call env right) (eval call' env' right') ValueRel) :
    Follows σ ρ (change call env (.binary (.var v) op right type))
      (change call' env' (.binary (.var v) op right' type')) Anything := by
  have hrun : ∀ op', Follows σ ρ
      (do
        let a ← addressOf env v.id
        let x ← readVar a
        let y ← eval call env right
        writeVar a (← orFault (operate op' x y)))
      (do
        let a ← addressOf env' v.id
        let x ← readVar a
        let y ← eval call' env' right'
        writeVar a (← orFault (operate op' x y))) Anything := by
    intro op'
    refine haddress.bind ?_
    intro ρ₁ a b hle₁ hab
    refine (follows_readVar hab).bind ?_
    intro ρ₂ x x' hle₂ hx
    refine (h.mono (hle₁.trans hle₂)).bind ?_
    intro ρ₃ y y' hle₃ hy
    refine (follows_operate op' (hx.mono hle₃) hy).bind ?_
    intro ρ₄ z z' hle₄ hz
    exact follows_writeVar ((hle₂.trans (hle₃.trans hle₄)).1 a b hab) hz
  cases op <;> first | exact hrun _ | exact .stop

theorem follows_change_unary {op : UnaryOp}
    (haddress : Follows σ ρ (addressOf env v.id) (addressOf env' v.id) fun ρ' a b => ρ'.rel a b) :
    Follows σ ρ (change call env (.unary op (.var v) leading type))
      (change call' env' (.unary op (.var v) leading' type')) Anything := by
  refine haddress.bind ?_
  intro ρ₁ a b hle₁ hab
  refine (follows_readVar hab).bind ?_
  intro ρ₂ x x' hle₂ hx
  refine (follows_stepped op hx).bind ?_
  intro ρ₃ z z' hle₃ hz
  exact follows_writeVar ((hle₂.trans hle₃).1 a b hab) hz

end Assignments

/-! ### Statements -/

inductive FlowRel (ρ : Links) : Flow → Flow → Prop
  | onward : FlowRel ρ .onward .onward
  | chop : FlowRel ρ .chop .chop
  | next : FlowRel ρ .next .next
  | back {v v' : Value} (h : ValueRel ρ v v') : FlowRel ρ (.back v) (.back v')

/-- How control leaves statements, and what they have declared. -/
def ResultRel (ρ : Links) (r r' : Flow × Env) : Prop :=
  FlowRel ρ r.1 r'.1 ∧ EnvRel ρ r.2 r'.2

def Onward (env env' : Env) (_ : Links) (r r' : Flow × Env) : Prop :=
  r = (.onward, env) ∧ r' = (.onward, env')

theorem FlowRel.mono {ρ' : Links} (hle : ρ ≤ ρ') (h : FlowRel ρ f f') : FlowRel ρ' f f' := by
  cases h with
  | back hv => exact .back (hv.mono hle)
  | _ => constructor

theorem FlowRel.comp {f'' : Flow} (h : FlowRel ρ f f') (h' : FlowRel τ f' f'') :
    FlowRel (ρ.comp τ) f f'' := by
  cases h with
  | back hv =>
    cases h' with
    | back hv' => exact .back (hv.comp hv')
  | _ =>
    cases h'
    constructor

theorem ResultRel.comp {r'' : Flow × Env} (h : ResultRel ρ r r') (h' : ResultRel τ r' r'') :
    ResultRel (ρ.comp τ) r r'' :=
  ⟨h.1.comp h'.1, h.2.comp h'.2⟩

theorem follows_loop {condition condition' : Run Bool} {body body' : Run Flow}
    {step step' : Run Unit} (hcondition : Follows σ ρ condition condition' fun _ b b' => b = b')
    (hbody : Follows σ ρ body body' FlowRel) (hstep : Follows σ ρ step step' Anything) (fuel : Nat) :
    Follows σ ρ (loop condition body step fuel) (loop condition' body' step' fuel) FlowRel := by
  induction fuel generalizing ρ with
  | zero => exact .stop
  | succ fuel ih =>
    refine hcondition.bind ?_
    rintro ρ₁ b _ hle₁ rfl
    cases b with
    | false => exact .pure fun _ _ => .onward
    | true =>
      refine (hbody.mono hle₁).bind ?_
      intro ρ₂ f f' hle₂ hf
      have hle := hle₁.trans hle₂
      have hagain := (hstep.mono hle).bind fun ρ₃ _ _ hle₃ _ =>
        have hle := hle.trans hle₃
        ih (hcondition.mono hle) (hbody.mono hle) (hstep.mono hle)
      cases hf with
      | onward | next => exact hagain
      | chop => exact .pure fun _ _ => .onward
      | back hv => exact .pure fun _ hle => .back (hv.mono hle)

theorem follows_thenRun {rest rest' : Env → Run (Flow × Env)} (hr : ResultRel ρ r r')
    (hrest : EnvRel ρ r.2 r'.2 → Follows σ ρ (rest r.2) (rest' r'.2) ResultRel) :
    Follows σ ρ (thenRun rest r) (thenRun rest' r') ResultRel := by
  obtain ⟨flow, env⟩ := r
  obtain ⟨flow', env'⟩ := r'
  obtain ⟨hflow, henv⟩ := hr
  dsimp only at hflow henv hrest
  cases hflow with
  | onward => exact hrest henv
  | chop => exact .pure fun _ hle => ⟨.chop, henv.mono hle⟩
  | next => exact .pure fun _ hle => ⟨.next, henv.mono hle⟩
  | back hv => exact .pure fun _ hle => ⟨.back (hv.mono hle), henv.mono hle⟩

section Statements

variable {fuel fuel' : Nat} {body body' : Option (List Node)}

attribute [local simp] exec execAll execBlock execArms execCases

variable {m' : Run (Flow × Env)} {name name' : String}
variable {init init' guard guard' : Node} {isStatic isStatic' : Bool} {rest rest' : List (Arm Node)}
  {otherwise otherwise' : Run (Flow × Env)}

theorem follows_onward {α β : Type} {m : Run α} {m' : Run β} {P : Links → α → β → Prop}
    (h : Follows σ ρ m m' P) :
    Follows σ ρ (do let _ ← m; return (.onward, env)) (do let _ ← m'; return (.onward, env'))
      (Onward env env') :=
  h.bind fun _ _ _ _ _ => .pure fun _ _ => ⟨rfl, rfl⟩

theorem Follows.onward (h : Follows σ ρ m m' (Onward env env')) (henv : EnvRel ρ env env') :
    Follows σ ρ m m' ResultRel := by
  refine h.imp ?_
  rintro ρ₁ _ _ hle ⟨rfl, rfl⟩
  exact ⟨.onward, henv.mono hle⟩

theorem follows_dropped (h : Follows σ ρ m m' ResultRel) (henv : EnvRel ρ env env') :
    Follows σ ρ (do let r ← m; return (r.1, env)) (do let r ← m'; return (r.1, env')) ResultRel :=
  h.bind fun _ _ _ hle hr => .pure fun _ hle' => ⟨hr.1.mono hle', henv.mono (hle.trans hle')⟩

theorem follows_flow (h : Follows σ ρ m m' ResultRel) :
    Follows σ ρ (Prod.fst <$> m) (Prod.fst <$> m') FlowRel := by
  rw [map_eq_pure_bind, map_eq_pure_bind]
  exact h.bind fun _ _ _ _ hr => .pure fun _ hle => hr.1.mono hle

theorem follows_varDecl (henv : EnvRel ρ env env') {isConst isConst' : Bool} (v : Variable)
    (h : Follows σ ρ (initial call env init) (initial call' env' init') ValueRel) :
    Follows σ ρ (exec call fuel env (.varDecl type name init isConst isStatic (some v)))
      (exec call' fuel' env' (.varDecl type' name' init' isConst' isStatic' (some v))) ResultRel := by
  simp only [exec]
  refine h.bind ?_
  intro ρ₁ x x' hle₁ hx
  refine (follows_allocate (.var hx)).bind ?_
  intro ρ₂ a b hle₂ hab
  refine .of_closed hab ?_
  intro ρ₃ hle₃ hb
  have henv' := (henv.mono (hle₁.trans (hle₂.trans hle₃))).cons v.id (hle₃.1 a b hab) hb
  exact .pure fun _ hle => ⟨.onward, henv'.mono hle⟩

theorem follows_funDecl (henv : EnvRel ρ env env') {params : Option (List Parameter)} (f : Function)
    (hcode : ∀ a, σ.codes ⟨f.id, parameterIds params, body⟩ ((f.id, a) :: env)
      ⟨f.id, parameterIds params, body'⟩) :
    Follows σ ρ (exec call fuel env (.funDecl name isStatic type params body (some f)))
      (exec call' fuel' env' (.funDecl name' isStatic' type' params body' (some f))) ResultRel := by
  simp only [exec]
  refine (follows_allocateFunction (by rfl) hcode henv).bind ?_
  intro ρ₁ _ _ _ henv'
  exact .pure fun _ hle => ⟨.onward, henv'.mono hle⟩

theorem follows_giveBack (henv : EnvRel ρ env env') {e e' : Node}
    (h : Follows σ ρ (eval call env e) (eval call' env' e') ValueRel) :
    Follows σ ρ (exec call fuel env (.giveBack e)) (exec call' fuel' env' (.giveBack e')) ResultRel := by
  simp only [exec]
  refine h.bind ?_
  intro ρ₁ x x' hle hx
  exact .pure fun _ hle' => ⟨.back (hx.mono hle'), henv.mono (hle.trans hle')⟩

theorem follows_whileLoop (henv : EnvRel ρ env env')
    (hcondition : Follows σ ρ (eval call env condition) (eval call' env' condition') ValueRel)
    (hbody : Follows σ ρ (execBlock call fuel env body) (execBlock call' fuel env' body') ResultRel) :
    Follows σ ρ (exec call fuel env (.whileLoop condition body))
      (exec call' fuel env' (.whileLoop condition' body')) ResultRel := by
  simp only [exec]
  have hstep : Follows σ ρ (pure ()) (pure ()) (Anything (α := Unit) (β := Unit)) :=
    .pure fun _ _ => trivial
  refine (follows_loop (follows_holds hcondition) (follows_flow hbody) hstep fuel).bind ?_
  intro ρ₁ f f' hle hf
  exact .pure fun _ hle' => ⟨hf.mono hle', henv.mono (hle.trans hle')⟩

theorem follows_forLoop (henv : EnvRel ρ env env') {step step' : Node} (v : Variable)
    (hinit : Follows σ ρ (eval call env init) (eval call' env' init') ValueRel)
    (hcondition : ∀ ρ₁ a b, ρ ≤ ρ₁ → EnvRel ρ₁ ((v.id, a) :: env) ((v.id, b) :: env') →
      Follows σ ρ₁ (eval call ((v.id, a) :: env) condition) (eval call' ((v.id, b) :: env') condition')
        ValueRel) (hstep : ∀ ρ₁ a b, ρ ≤ ρ₁ → EnvRel ρ₁ ((v.id, a) :: env) ((v.id, b) :: env') →
      Follows σ ρ₁ (change call ((v.id, a) :: env) step) (change call' ((v.id, b) :: env') step')
        Anything) (hbody : ∀ ρ₁ a b, ρ ≤ ρ₁ → EnvRel ρ₁ ((v.id, a) :: env) ((v.id, b) :: env') →
      Follows σ ρ₁ (execBlock call fuel ((v.id, a) :: env) body)
        (execBlock call' fuel ((v.id, b) :: env') body') ResultRel) :
    Follows σ ρ (exec call fuel env (.forLoop name init condition step body (some v)))
      (exec call' fuel env' (.forLoop name' init' condition' step' body' (some v))) ResultRel := by
  simp only [exec]
  refine hinit.bind ?_
  intro ρ₁ x x' hle₁ hx
  refine (follows_allocate (.var hx)).bind ?_
  intro ρ₂ a b hle₂ hab
  refine .of_closed hab ?_
  intro ρ₃ hle₃ hb
  have hle := hle₁.trans (hle₂.trans hle₃)
  have henv' := (henv.mono hle).cons v.id (hle₃.1 a b hab) hb
  refine (follows_loop (follows_holds (hcondition ρ₃ a b hle henv'))
    (follows_flow (hbody ρ₃ a b hle henv')) (hstep ρ₃ a b hle henv') fuel).bind ?_
  intro ρ₄ f f' hle₄ hf
  exact .pure fun _ hle' => ⟨hf.mono hle', henv.mono (hle.trans (hle₄.trans hle'))⟩

theorem follows_execArms_cons
    (hguard : Follows σ ρ (eval call env guard) (eval call' env' guard') ValueRel)
    (hbody : Follows σ ρ (execBlock call fuel env body) (execBlock call' fuel' env' body') ResultRel)
    (hrest : Follows σ ρ (execArms call fuel env otherwise rest)
      (execArms call' fuel' env' otherwise' rest') ResultRel) :
    Follows σ ρ (execArms call fuel env otherwise (⟨guard, body⟩ :: rest))
      (execArms call' fuel' env' otherwise' (⟨guard', body'⟩ :: rest')) ResultRel := by
  simp only [execArms]
  refine (follows_holds hguard).bind ?_
  rintro ρ₁ b _ hle rfl
  cases b with
  | true => exact hbody.mono hle
  | false => exact hrest.mono hle

theorem follows_execCases_cons {x x' : Value} (hx : ValueRel ρ x x')
    (hguard : Follows σ ρ (eval call env guard) (eval call' env' guard') ValueRel)
    (hbody : Follows σ ρ (execBlock call fuel env body) (execBlock call' fuel' env' body') ResultRel)
    (hrest : Follows σ ρ (execCases call fuel env x otherwise rest)
      (execCases call' fuel' env' x' otherwise' rest') ResultRel) :
    Follows σ ρ (execCases call fuel env x otherwise (⟨guard, body⟩ :: rest))
      (execCases call' fuel' env' x' otherwise' (⟨guard', body'⟩ :: rest')) ResultRel := by
  simp only [execCases]
  refine hguard.bind ?_
  intro ρ₁ k k' hle hk
  refine .of_oneToOne ?_
  intro ρ₂ hle' hone
  have hle'' := hle.trans hle'
  rw [(hx.mono hle'').same_eq hone (hk.mono hle')]
  split
  · exact hbody.mono hle''
  · exact hrest.mono hle''

theorem follows_switch (henv : EnvRel ρ env env') {scrutinee scrutinee' : Node}
    {cases cases' : List (Arm Node)}
    (hscrutinee : Follows σ ρ (eval call env scrutinee) (eval call' env' scrutinee') ValueRel)
    (hcases : ∀ ρ₁ x x', ρ ≤ ρ₁ → ValueRel ρ₁ x x' →
      Follows σ ρ₁ (execCases call fuel env x (execBlock call fuel env body) cases)
        (execCases call' fuel' env' x' (execBlock call' fuel' env' body') cases') ResultRel) :
    Follows σ ρ (exec call fuel env (.switch scrutinee cases body))
      (exec call' fuel' env' (.switch scrutinee' cases' body')) ResultRel := by
  simp only [exec]
  refine hscrutinee.bind ?_
  intro ρ₁ x x' hle hx
  exact follows_dropped (hcases ρ₁ x x' hle hx) (henv.mono hle)

end Statements

/-! ### Sequences -/

section Sequences

variable {fuel : Nat}

theorem thenRun_pure (r : Flow × Env) : thenRun (fun env => pure (.onward, env)) r = pure r := by
  obtain ⟨flow, env⟩ := r
  cases flow <;> rfl

theorem thenRun_bind (rest rest' : Env → Run (Flow × Env)) (r : Flow × Env) :
    (thenRun rest r >>= thenRun rest') = thenRun (fun env => rest env >>= thenRun rest') r := by
  obtain ⟨flow, env⟩ := r
  cases flow <;> simp only [thenRun, pure_bind]

theorem execAll_singleton (n : Node) : execAll call fuel env [n] = exec call fuel env n := by
  simp only [execAll, thenRun_pure, bind_pure]

theorem follows_single (h : Follows σ ρ m (exec call fuel env n) ResultRel) :
    Follows σ ρ m (execAll call fuel env [n]) ResultRel := by
  rwa [execAll_singleton]

theorem execAll_append (ns ns' : List Node) : execAll call fuel env (ns ++ ns') =
      (execAll call fuel env ns >>= thenRun fun env => execAll call fuel env ns') := by
  induction ns generalizing env with
  | nil => simp only [List.nil_append, execAll, pure_bind, thenRun]
  | cons n ns ih => simp only [List.cons_append, execAll, bind_assoc, thenRun_bind, ih]

end Sequences

/-! ### Expressions as statements -/

def isEvaluated : Node → Bool
  | .varDecl _ _ _ _ _ (some _) | .funDecl _ _ _ _ _ (some _) | .assign .. | .binary _ .addAssign _ _
  | .binary _ .subAssign _ _ | .unary .increment _ _ _ | .unary .decrement _ _ _ | .ifElse ..
  | .switch .. | .whileLoop .. | .forLoop _ _ _ _ _ (some _) | .giveBack _ | .giveBackNothing | .chop
  | .next => false
  | _ => true

theorem exec_of_isEvaluated (h : isEvaluated n) :
    exec call fuel env n = (do let _ ← eval call env n; return (.onward, env)) := by
  unfold isEvaluated at h
  split at h <;> cases h
  rw [exec] <;> assumption

theorem operate_assign (hop : op = .addAssign ∨ op = .subAssign) (x y : Value) :
    operate op x y = none := by
  rcases hop with rfl | rfl <;> cases x <;> cases y <;> rfl

theorem operateUnary_step {op : UnaryOp} (hop : op = .increment ∨ op = .decrement) (x : Value) :
    operateUnary op x = none := by
  rcases hop with rfl | rfl <;> rfl

theorem eval_ne_ok (h : isEvaluated n = false) (s t : State) (x : Value) :
    eval call env n s ≠ .ok (x, t) := by
  have hbinary : ∀ left op right type, op = .addAssign ∨ op = .subAssign →
      eval call env (.binary left op right type) s ≠ .ok (x, t) := by
    intro left op right type hop hok
    rw [eval_strict (by rcases hop with rfl | rfl <;> rfl)] at hok
    obtain ⟨_, _, _, hok⟩ := bind_eq_ok hok
    obtain ⟨_, _, _, hok⟩ := bind_eq_ok hok
    rw [operate_assign hop] at hok
    cases hok
  have hunary : ∀ op operand leading type, op = .increment ∨ op = .decrement →
      eval call env (.unary op operand leading type) s ≠ .ok (x, t) := by
    intro op operand leading type hop hok
    simp only [eval] at hok
    obtain ⟨_, _, _, hok⟩ := bind_eq_ok hok
    rw [operateUnary_step hop] at hok
    cases hok
  unfold isEvaluated at h
  split at h <;> cases h
  all_goals first
    | exact hbinary _ _ _ _ (.inl rfl)
    | exact hbinary _ _ _ _ (.inr rfl)
    | exact hunary _ _ _ _ (.inl rfl)
    | exact hunary _ _ _ _ (.inr rfl)
    | exact fun hok => by cases hok

theorem follows_evaluated {fuel' : Nat} (hn : isEvaluated n)
    (h : Follows σ ρ (eval call env n) (eval call' env' n') ValueRel) :
    Follows σ ρ (exec call fuel env n) (exec call' fuel' env' n') (Onward env env') := by
  rw [exec_of_isEvaluated hn]
  cases hn' : isEvaluated n' with
  | true =>
    rw [exec_of_isEvaluated hn']
    exact follows_onward h
  | false =>
    intro ρ₀ s s' t r hle hs hm
    obtain ⟨x, u, hx, _⟩ := bind_eq_ok hm
    obtain ⟨y, u', _, hy, _⟩ := h hle hs hx
    exact absurd hy (eval_ne_ok hn' s' u' y)

end Semantics

end LemonScript
