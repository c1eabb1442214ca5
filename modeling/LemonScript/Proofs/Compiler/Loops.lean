import LemonScript.Proofs.Compiler.Safety
import LemonScript.Proofs.Semantics.Counting
import LemonScript.Proofs.Typing.Placed
/-!
# Loops are written out exactly

A loop of an analyzed program whose rounds are counted runs like the copies of its body. That holds of
every end that a run can come to, and of integers of any size.
-/

namespace LemonScript

open Semantics Located Simplify

/-! ### Copies of a well-formed body -/

section Copies

variable {Γ : Site} {v : Variable}

theorem Scoped.expression_of_copyable {entity : Option Variable} {n c : Node} (h : Scoped.Statement Γ n)
    (hcopy : copyable entity n) (hc : c ∈ n.children) : Scoped.Expression Γ c := by
  cases n with
  | assign =>
    exact forall_mem_two h.1 h.2 c hc
  | giveBack => exact List.forall_mem_singleton.mpr h.2 c hc
  | varDecl | funDecl | ifElse | whileLoop | forLoop | switch | chop | next => cases hcopy
  | giveBackNothing => cases hc
  | _ => exact h.elim (fun h => h.children c hc) fun h => h.children c hc

theorem Scoped.lacksFunction_of_copyable {entity : Option Variable} {n : Node} (h : Scoped.Statement Γ n)
    (hcopy : copyable entity n) {id : Int} (hown : Library.isLibrary id = false) (hid : id ∉ Γ.funs) :
    n.LacksFunction id := by
  intro f hf
  have hscoped : Scoped.Expression Γ (.fn f) := by
    cases hf with
    | refl => exact h.elim False.elim fun h => h
    | child hc hf => exact (Scoped.expression_of_copyable h hcopy hc).partOf hf
  rintro rfl
  rcases hscoped.1 with hlibrary | hmem
  · rw [hlibrary] at hown
    cases hown
  · exact hid hmem

theorem Simplify.substituteAll_of_copied {id value : Int} {body : List Node} (h : ∀ n ∈ body, Copied Γ id value n) :
    substituteAll id value body = .ok (putAll id value body) := by
  induction body with
  | nil => rfl
  | cons n ns ih =>
    obtain ⟨hn, hns⟩ := List.forall_mem_cons.mp h
    rw [substituteAll, hn.substitute_eq, ih hns]
    rfl

end Copies

namespace Recorded

/-- The rounds of a loop, each with its own value of the variable, tell exactly what the loop does. -/
structure WritesOut (name : String) (v : Variable) (init condition step : Node) (body : Option (List Node))
    (i : Iterations) : Prop where
  /-- The condition holds in as many rounds as are counted and in no other one. -/
  counts : ∀ (k depth a : Nat) (env : Env) (r : Record),
    r.state.memory[a]? = some (.var (.int (i.start + k * i.step))) →
      holds (callAt depth) ((v.id, a) :: env) condition r = (.ok (decide (k < i.count)), r)
  /-- The step leads from each round to the next one. -/
  steps : ∀ (k depth a : Nat) (env : Env) (r : Record),
    r.state.memory[a]? = some (.var (.int (i.start + k * i.step))) →
      change (callAt depth) ((v.id, a) :: env) step r = (.ok (), { r with
        state := { r.state with memory := r.state.memory.set a (.var (.int (i.start + (k + 1) * i.step))) } })
  /-- The loop comes to the end to which its rounds come one after the other, whatever that end is. In
  memory there is one more cell, which is that of the variable. -/
  runs : ∃ rounds : List (List Node),
    (List.range i.count).mapM (fun k : Nat => substituteAll v.id (i.start + k * i.step) (body.getD [])) =
      .ok rounds ∧
    ∀ (depth fuel : Nat) (env : Env) (r : Record), i.count < fuel → r.Closed → Within r.size env →
      ∃ last, exec (callAt depth) fuel env (.forLoop name init condition step body (some v)) r =
        extended r.size (.var (.int last)) (execAll (callAt depth) fuel env rounds.flatten r)

theorem rounds_eq_flatten (id : Int) (body : List Node) (i : Iterations) : rounds id body i.values =
      ((List.range i.count).map fun k : Nat => putAll id (i.start + k * i.step) body).flatten := by
  rw [rounds, List.flatMap_def, Iterations.values, List.map_map]
  rfl

theorem writesOut_of_scoped {Γ : Site} {name : String} {v : Variable} {init condition step : Node}
    {body : Option (List Node)} {i : Iterations} (hown : Library.isLibrary v.id = false) (hid : v.id ∉ Γ.funs)
    (hbody : Scoped.Block (Γ.declare v.id).loop body) (hi : iterations? (some v) init condition step = some i)
    (hcopy : (body.getD []).all (copyable (some v))) :
    WritesOut name v init condition step body i := by
  have hscoped := scoped_of_copyable (scoped_getD hbody) hcopy
  have hcopyable := List.all_eq_true.mp hcopy
  have hlacks : ∀ n ∈ body.getD [], n.LacksFunction v.id := fun n hn =>
    Scoped.lacksFunction_of_copyable (hscoped n hn) (hcopyable n hn) hown hid
  have hcopied (k : Nat) : substituteAll v.id (i.start + k * i.step) (body.getD []) =
      pure (putAll v.id (i.start + k * i.step) (body.getD [])) :=
    substituteAll_of_copied fun n hn => copied_of_copyable (hscoped n hn) (hcopyable n hn)
  obtain ⟨start, left, op, bound, type, d, count, hinit, rfl, hleft, hstep, hcount, hvalues⟩ := of_iterations? hi
  refine ⟨fun k depth a env r hcell => ?_, fun k depth a env r hcell => ?_,
    (List.range i.count).map fun k : Nat => putAll v.id (i.start + k * i.step) (body.getD []), ?_, ?_⟩
  · subst hvalues
    refine holds_of_counter hown hleft (isLogic_of_countOf? hcount) hcell ?_
    rw [operate_counter (countOf?_add_mul hcount k)]
    exact congrArg (fun b => some (Value.bool b)) (decide_eq_decide.mpr (by dsimp only; omega))
  · subst hvalues
    rw [change_of_counter hown hstep hcell]
    dsimp only
    rw [show start + k * d + d = start + (k + 1) * d by ring]
  · simp only [hcopied]
    exact List.mapM_pure
  · intro depth fuel env r hfuel hr henv
    rw [← rounds_eq_flatten]
    exact exec_counting (fun _ _ => respecting_callAt depth) hown hi hcopyable hlacks hfuel henv hr

end Recorded

namespace CompileOptions

variable {o : CompileOptions} {source : String}

/-- Loops are written out exactly. If the rounds of a loop of an analyzed program are counted once its parts
have been simplified, and its body can be copied, then the condition holds in just these rounds, and from
every state the loop comes to the same end as the copies of the body, each with its value for the
variable of the loop. Calls, output, faults and a value that is given back are part of that end, and the
cell of the variable is all that is left of the loop. -/
theorem loop_writesOut {q : Program} (h : o.analyze source = .ok q) (options : SimplifyOptions)
    {name : String} {init condition step : Node} {body : Option (List Node)} {entity : Option Variable}
    (hloop : Node.PartOf (.forLoop name init condition step body entity) q.node) :
    ∃ v init' condition' step' body', entity = some v ∧ expression init = .ok init' ∧
      expression condition = .ok condition' ∧ expression step = .ok step' ∧ block options body = .ok body' ∧
      ∀ i, iterations? entity init' condition' step' = some i →
        (body'.getD []).all (copyable entity) = true →
          Recorded.WritesOut name v init' condition' step' body' i := by
  have hq := wellFormed_of_analyze h
  rcases hq.beneath hloop with heq | heq | ⟨Γ, ⟨hscoped, hnew⟩, hsub⟩
  · cases heq
  · cases heq
  · obtain ⟨v, rfl, hinit, hcondition, hstep, hbody⟩ := hscoped
    have hown : Library.isLibrary v.id = false := hq.own v.id (hsub (.head _))
    have hunused : v.id ∉ Γ.funs := hnew.unused v.id (.head _)
    refine ⟨v, simpler init, simpler condition, simpler step, simplerBlock options body, rfl, expression_eq hinit,
      expression_eq hcondition, expression_eq_of_update hstep, block_eq options hbody, fun i hi hcopy => ?_⟩
    exact Recorded.writesOut_of_scoped hown hunused (replaces_block options hbody).inScope hi hcopy

def division : String :=
  "slice n = 6 forEachLemon (slice i = 2; i >= -1; i--) BEGIN JUICING pour(n / i) END JUICING"

/-- The rounds that are counted in a program that is a declaration and a loop, if the loop can be written
out. -/
def rounds? (source : String) : Option Iterations :=
  match (default : CompileOptions).analyze source with
  | .ok ⟨_, some [_, .forLoop _ init condition step body entity]⟩ =>
    match expression init, expression condition, expression step, block default body with
    | .ok init, .ok condition, .ok step, .ok body =>
      if (body.getD []).all (copyable entity) then iterations? entity init condition step else none
    | _, _, _, _ => none
  | _ => none

theorem loop_writesOut_division :
    ∃ q name v init condition step body, (default : CompileOptions).analyze division = .ok q ∧
      Node.PartOf (.forLoop name init condition step body (some v)) q.node ∧
      ∃ init' condition' step' body', iterations? (some v) init' condition' step' = some ⟨2, -1, 4⟩ ∧
        Recorded.WritesOut name v init' condition' step' body' ⟨2, -1, 4⟩ := by
  have hrounds : rounds? division = some ⟨2, -1, 4⟩ := by decide +kernel
  unfold rounds? at hrounds
  split at hrounds
  · next imports n name init condition step body entity hq =>
    have hloop : Node.PartOf (.forLoop name init condition step body entity)
        (Program.node ⟨imports, some [n, .forLoop name init condition step body entity]⟩) :=
      .child (.tail _ (.head _)) (.refl _)
    obtain ⟨v, init', condition', step', body', rfl, hinit, hcondition, hstep, hbody, hwritten⟩ :=
      loop_writesOut hq default hloop
    rw [hinit, hcondition, hstep, hbody] at hrounds
    dsimp only at hrounds
    split at hrounds
    · next hcopy =>
      exact ⟨_, name, v, init, condition, step, body, hq, hloop, init', condition', step', body', hrounds,
        hwritten _ hrounds hcopy⟩
    · cases hrounds
  · cases hrounds

end CompileOptions

end LemonScript
