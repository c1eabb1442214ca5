import LemonScript.Proofs.Simplify.Combine
import LemonScript.Proofs.Typing.Scoped
import LemonScript.Simplify.Statement
/-!
# Simplification without faults

On well-formed trees no step of simplification meets a fault. This module has each of them as a
function that always gives a result; the step and the function agree wherever the tree is well
formed.
-/

namespace LemonScript

namespace Simplify

/-! ### Expressions -/

variable {n : Node}

mutual

def simpler : Node → Node
  | .binary left op right type =>
    match op with
    | .addAssign | .subAssign => .binary left op (simpler right) type
    | _ => combine (simpler left) op (simpler right) type
  | .unary op operand leading type => combineUnary op (simpler operand) leading type
  | .call callee args type => .call (simpler callee) (simplerOptional args) type
  | .arrayLit elements type => .arrayLit (simplerOptional elements) type
  | .mapLit entries type => .mapLit (simplerEntries entries) type
  | .member array index type => .member (simpler array) index type
  | .property map key type => .property (simpler map) (simpler key) type
  | n => n

def simplerAll : List Node → List Node
  | [] => []
  | n :: ns => simpler n :: simplerAll ns

def simplerOptional : Option (List Node) → Option (List Node)
  | none => none
  | some ns => some (simplerAll ns)

def simplerEntries : List (Entry Node) → List (Entry Node)
  | [] => []
  | ⟨key, value⟩ :: rest => ⟨simpler key, simpler value⟩ :: simplerEntries rest

end

theorem simplerOptional_eq_map (ns : Option (List Node)) : simplerOptional ns = ns.map (List.map simpler) := by
  have hall (ns : List Node) : simplerAll ns = ns.map simpler := by
    induction ns with
    | nil => rfl
    | cons n ns ih => rw [simplerAll, ih, List.map_cons]
  cases ns with
  | none => rfl
  | some ns => rw [simplerOptional, hall, Option.map_some]

theorem getD_simplerOptional (ns : Option (List Node)) : (simplerOptional ns).getD [] = (ns.getD []).map simpler := by
  rw [simplerOptional_eq_map]
  cases ns <;> rfl

theorem simplerEntries_eq_map (es : List (Entry Node)) :
    simplerEntries es = es.map fun e => ⟨simpler e.key, simpler e.value⟩ := by
  induction es with
  | nil => rfl
  | cons e es ih => rw [simplerEntries, ih, List.map_cons]

variable {Γ : Site}

mutual

theorem expression_eq : ∀ {n : Node}, Scoped.Expression Γ n → expression n = .ok (simpler n)
  | .binary left op right type, h => by
    simp only [expression, simpler, expression_eq h.2.1, expression_eq h.2.2, operation_eq]
    cases op <;> rfl
  | .unary op operand leading type, h => by
    simp only [expression, simpler, expression_eq h.2]
    rfl
  | .call callee args type, h => by
    simp only [expression, simpler, expression_eq h.1, optionalExpressions_eq h.2]
    rfl
  | .arrayLit elements type, h => by
    simp only [expression, simpler, optionalExpressions_eq (l := elements) h]
    rfl
  | .mapLit entries type, h => by
    simp only [expression, simpler, mapEntries_eq (l := entries) h]
    rfl
  | .member array index type, h => by
    simp only [expression, simpler, expression_eq h.2]
    rfl
  | .property map key type, h => by
    simp only [expression, simpler, expression_eq h.1, expression_eq h.2]
    rfl
  | .intLit _, _ | .floatLit _, _ | .stringLit _, _ | .boolLit .., _ | .var _, _ | .fn _, _ => by
    simp only [expression, simpler]
    rfl

theorem expressions_eq : ∀ {l : List Node}, Scoped.Expressions Γ l →
    expressions l = .ok (simplerAll l)
  | [], _ => rfl
  | n :: ns, h => by
    simp only [expressions, simplerAll, expression_eq h.1, expressions_eq h.2]
    rfl

theorem optionalExpressions_eq : ∀ {l : Option (List Node)}, Scoped.Optional Γ l →
    optionalExpressions l = .ok (simplerOptional l)
  | none, _ => rfl
  | some ns, h => by
    simp only [optionalExpressions, simplerOptional, expressions_eq (l := ns) h]
    rfl

theorem mapEntries_eq : ∀ {l : List (Entry Node)}, Scoped.Entries Γ l →
    mapEntries l = .ok (simplerEntries l)
  | [], _ => rfl
  | ⟨key, value⟩ :: rest, h => by
    simp only [mapEntries, simplerEntries, expression_eq h.1, expression_eq h.2.1,
      mapEntries_eq h.2.2]
    rfl

end

theorem expression_eq_of_update (h : Scoped.Update Γ n) : expression n = .ok (simpler n) := by
  unfold Scoped.Update at h
  split at h
  · next v op right type =>
    simp only [expression, simpler, expression_eq h.2.2, operation_eq]
    cases op <;> rfl
  · next op v leading type =>
    simp only [expression, simpler]
    rfl
  · exact h.elim

/-! ### Copies of loop bodies -/

mutual

/-- Puts an integer in the place of every use of a variable. -/
def put (id value : Int) : Node → Node
  | .var v => if v.id == id then .intLit value else .var v
  | .assign target source => .assign (put id value target) (put id value source)
  | .giveBack e => .giveBack (put id value e)
  | .binary left op right type => .binary (put id value left) op (put id value right) type
  | .unary op operand leading type => .unary op (put id value operand) leading type
  | .call callee args type => .call (put id value callee) (putOptional id value args) type
  | .arrayLit elements type => .arrayLit (putOptional id value elements) type
  | .mapLit entries type => .mapLit (putEntries id value entries) type
  | .member array index type => .member (put id value array) index type
  | .property map key type => .property (put id value map) (put id value key) type
  | n => n

def putAll (id value : Int) : List Node → List Node
  | [] => []
  | n :: ns => put id value n :: putAll id value ns

def putOptional (id value : Int) : Option (List Node) → Option (List Node)
  | none => none
  | some ns => some (putAll id value ns)

def putEntries (id value : Int) : List (Entry Node) → List (Entry Node)
  | [] => []
  | ⟨key, content⟩ :: rest => ⟨put id value key, put id value content⟩ :: putEntries id value rest

end

theorem putAll_eq_map (id value : Int) (ns : List Node) : putAll id value ns = ns.map (put id value) := by
  induction ns with
  | nil => rfl
  | cons n ns ih => rw [putAll, ih, List.map_cons]

theorem putOptional_eq_map (id value : Int) (ns : Option (List Node)) :
    putOptional id value ns = ns.map (List.map (put id value)) := by
  cases ns with
  | none => rfl
  | some ns => rw [putOptional, putAll_eq_map, Option.map_some]

theorem putEntries_eq_map (id value : Int) (es : List (Entry Node)) :
    putEntries id value es = es.map fun e => ⟨put id value e.key, put id value e.value⟩ := by
  induction es with
  | nil => rfl
  | cons e es ih => rw [putEntries, ih, List.map_cons]

section Substitute

variable {id value : Int}

mutual

theorem substitute_eq : ∀ {n : Node}, Scoped.Expression Γ n →
    substitute id value n = .ok (put id value n)
  | .binary left op right type, h => by
    simp only [substitute, put, substitute_eq h.2.1, substitute_eq h.2.2]
    rfl
  | .unary op operand leading type, h => by
    simp only [substitute, put, substitute_eq h.2]
    rfl
  | .call callee args type, h => by
    simp only [substitute, put, substitute_eq h.1, substituteOptional_eq h.2]
    rfl
  | .arrayLit elements type, h => by
    simp only [substitute, put, substituteOptional_eq (l := elements) h]
    rfl
  | .mapLit entries type, h => by
    simp only [substitute, put, substituteEntries_eq (l := entries) h]
    rfl
  | .member array index type, h => by
    simp only [substitute, put, substitute_eq h.2]
    rfl
  | .property map key type, h => by
    simp only [substitute, put, substitute_eq h.1, substitute_eq h.2]
    rfl
  | .intLit _, _ | .floatLit _, _ | .stringLit _, _ | .boolLit .., _ | .var _, _ | .fn _, _ => by
    simp only [substitute, put]
    rfl

theorem substituteAll_eq : ∀ {l : List Node}, Scoped.Expressions Γ l →
    substituteAll id value l = .ok (putAll id value l)
  | [], _ => rfl
  | n :: ns, h => by
    simp only [substituteAll, putAll, substitute_eq h.1, substituteAll_eq h.2]
    rfl

theorem substituteOptional_eq : ∀ {l : Option (List Node)}, Scoped.Optional Γ l →
    substituteOptional id value l = .ok (putOptional id value l)
  | none, _ => rfl
  | some ns, h => by
    simp only [substituteOptional, putOptional, substituteAll_eq (l := ns) h]
    rfl

theorem substituteEntries_eq : ∀ {l : List (Entry Node)}, Scoped.Entries Γ l →
    substituteEntries id value l = .ok (putEntries id value l)
  | [], _ => rfl
  | ⟨key, content⟩ :: rest, h => by
    simp only [substituteEntries, putEntries, substitute_eq h.1, substitute_eq h.2.1,
      substituteEntries_eq h.2.2]
    rfl

end

end Substitute

/-! ### Statements -/

def isPlain : Node → Bool
  | .funDecl .. | .ifElse .. | .whileLoop .. | .forLoop .. | .switch .. => false
  | _ => true

def plain : Node → Option (List Node)
  | .varDecl type name init isConst isStatic entity =>
    some [.varDecl type name (simpler init) isConst isStatic entity]
  | .assign target source => assign (simpler target) (simpler source)
  | .giveBack value => some [.giveBack (simpler value)]
  | .binary left .addAssign right type =>
    assign (simpler left) (combine (simpler left) .add (simpler right) type)
  | .binary left .subAssign right type =>
    assign (simpler left) (combine (simpler left) .sub (simpler right) type)
  | n => some [simpler n]

/-- The body of a loop with a value for the loop variable. -/
def copy (id value : Int) : List Node → List Node
  | [] => []
  | n :: ns => (plain (put id value n)).getD [] ++ copy id value ns

def copies (id : Int) (body : List Node) : List Int → List Node
  | [] => []
  | value :: values => copy id value body ++ copies id body values

/-- The values of the loop variable, if the loop is written out. -/
def unrolling? (o : SimplifyOptions) (init condition step : Node) (body : Option (List Node))
    (entity : Option Variable) : Option (Int × List Int) :=
  match entity, iterations? entity init condition step with
  | some v, some i =>
    if i.count ≤ o.maxUnroll && (body.getD []).all (copyable entity) then some (v.id, i.values)
    else none
  | _, _ => none

theorem of_unrolling? {o : SimplifyOptions} {init condition step : Node} {body : Option (List Node)}
    {entity : Option Variable} {id : Int} {values : List Int}
    (h : unrolling? o init condition step body entity = some (id, values)) :
    ∃ v i, entity = some v ∧ iterations? entity init condition step = some i ∧ id = v.id ∧
      values = i.values ∧ i.count ≤ o.maxUnroll ∧ (body.getD []).all (copyable entity) := by
  unfold unrolling? at h
  split at h
  · next v i hi =>
    split at h
    · next hcond =>
      rw [Bool.and_eq_true, decide_eq_true_iff] at hcond
      simp only [Option.some.injEq, Prod.mk.injEq] at h
      exact ⟨v, i, rfl, hi, h.1.symm, h.2.symm, hcond.1, hcond.2⟩
    · exact absurd h (by simp)
  · exact absurd h (by simp)

def simplerFor (o : SimplifyOptions) (name : String) (init condition step : Node)
    (body : Option (List Node)) (entity : Option Variable) : List Node :=
  match unrolling? o init condition step body entity with
  | some (id, values) => copies id (body.getD []) values
  | none => [.forLoop name init condition step body entity]

mutual

def simplerStatement (o : SimplifyOptions) : Node → Option (List Node)
  | .funDecl name isStatic result params body entity =>
    some [.funDecl name isStatic result params (simplerBlock o body) entity]
  | .ifElse cases otherwise =>
    let chain := simplerChain o cases
    let rest := chain.always.getD (simplerBlock o otherwise)
    if chain.arms.isEmpty then rest else some [.ifElse chain.arms rest]
  | .whileLoop condition body =>
    if isBool false (simpler condition) then none
    else some [.whileLoop (simpler condition) (simplerBlock o body)]
  | .forLoop name init condition step body entity =>
    some (simplerFor o name (simpler init) (simpler condition) (simpler step) (simplerBlock o body)
      entity)
  | .switch scrutinee cases default =>
    some [.switch (simpler scrutinee) (simplerCases o cases) (simplerBlock o default)]
  | n => plain n

def simplerStatements (o : SimplifyOptions) : List Node → List Node
  | [] => []
  | n :: ns => (simplerStatement o n).getD [] ++ simplerStatements o ns

def simplerBlock (o : SimplifyOptions) : Option (List Node) → Option (List Node)
  | none => none
  | some ns => some (simplerStatements o ns)

def simplerChain (o : SimplifyOptions) : List (Arm Node) → IfChain
  | [] => ⟨[], none⟩
  | ⟨guard, body⟩ :: rest =>
    if isBool true (simpler guard) then ⟨[], some (simplerBlock o body)⟩
    else if isBool false (simpler guard) then simplerChain o rest
    else ⟨⟨simpler guard, simplerBlock o body⟩ :: (simplerChain o rest).arms, (simplerChain o rest).always⟩

def simplerCases (o : SimplifyOptions) : List (Arm Node) → List (Arm Node)
  | [] => []
  | ⟨guard, body⟩ :: rest => ⟨simpler guard, simplerBlock o body⟩ :: simplerCases o rest

end

theorem simplerStatement_of_isPlain (o : SimplifyOptions) (h : isPlain n) :
    simplerStatement o n = plain n := by
  cases n <;> first | rfl | simp [isPlain] at h

theorem statement_of_isPlain (o : SimplifyOptions) (h : isPlain n) :
    statement o n = plainStatement n := by
  cases n <;> first | rfl | simp [isPlain] at h

theorem plainStatement_eq (h : Scoped.Statement Γ n) (hplain : isPlain n) :
    plainStatement n = .ok (plain n) := by
  cases n with
  | varDecl _ _ init =>
    rcases h.1 with rfl | hinit
    · rfl
    · have hpresent : init.isMissing = false := by
        cases init <;> first | rfl | exact hinit.elim
      simp only [plainStatement, plain, hpresent, expression_eq hinit]
      rfl
  | assign =>
    simp only [plainStatement, plain, expression_eq h.1, expression_eq h.2]
    rfl
  | giveBack =>
    simp only [plainStatement, plain, expression_eq h.2]
    rfl
  | giveBackNothing | chop | next => rfl
  | funDecl | ifElse | whileLoop | forLoop | switch => simp [isPlain] at hplain
  | binary left op =>
    rcases h with h | h
    · cases left with
      | var v =>
        have hright := expression_eq h.2.2
        cases op <;> first
          | exact absurd h.2.1 id
          | simp only [plainStatement, plain, expression, simpler, hright, operation_eq]; rfl
      | _ => exact h.elim
    · have hop := h.1
      have hwhole := expression_eq h
      cases op <;> first
        | exact absurd hop id
        | simp only [plainStatement, plain, hwhole]; rfl
  | _ =>
    rcases h with h | h
    · simp only [plainStatement, plain, expression_eq_of_update h]
      rfl
    · simp only [plainStatement, plain, expression_eq h]
      rfl

end Simplify

end LemonScript
