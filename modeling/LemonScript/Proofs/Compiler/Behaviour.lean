import LemonScript.Proofs.Compiler.Safety
import LemonScript.Proofs.Semantics.Preserved
/-!
# Simplification preserves behaviour

A simplified program prints what the program prints, and leaves the same values in its variables.
-/

namespace LemonScript

open Semantics

namespace Semantics

def valueOf (env : Env) (s : State) (id : Int) : Option Value :=
  match (env.lookup id).bind fun a => s.memory[a]? with
  | some (.var v) => some v
  | _ => none

/-- The second of two runs printed what the first one did, and every variable that is known at the end
of the first one has a value that looks the same, however deep one looks. -/
structure SameOutcome (env : Env) (s : State) (env' : Env) (s' : State) : Prop where
  output : s'.output = s.output
  values : ∀ {id v}, valueOf env s id = some v → ∃ v', valueOf env' s' id = some v' ∧
    ∀ depth, picture s'.memory depth v' = picture s.memory depth v

theorem sameOutcome_of_linked {σ : Setting} {ρ : Links} {env env' : Env} {s s' : State}
    (hs : StateRel σ ρ s s') (henv : EnvRel ρ env env') : SameOutcome env s env' s' where
  output := hs.output.symm
  values := by
    intro id v hv
    unfold valueOf at hv
    split at hv
    · next hcell =>
      cases hv
      obtain ⟨a, ha, hc⟩ := Option.bind_eq_some_iff.mp hcell
      obtain ⟨b, hb, hab⟩ := henv.lookup ha
      obtain ⟨c, c', hcell, hcell', hrel⟩ := hs.cells hab
      obtain rfl := Option.some.inj (hc.symm.trans hcell)
      cases hrel with
      | var hvalue =>
        refine ⟨_, ?_, fun depth => (hs.picture_eq depth hvalue).symm⟩
        simp only [valueOf, hb, Option.bind_some, hcell']
    · cases hv

def unlinked : Links := ⟨fun _ _ => False, fun _ => False⟩

theorem stateRel_unlinked (R : Codes) (s : State) : StateRel ⟨R, noPins⟩ unlinked s s where
  cells := False.elim
  oneToOne := ⟨False.elim, False.elim⟩
  closed_right := False.elim
  right := False.elim
  output := rfl
  pinned := False.elim
  unlinked := False.elim

end Semantics

/-- Every run of a well-formed program has a run of the simplified program with the same outcome. -/
theorem Program.WellFormed.ends_simpler {p : Program} (h : p.WellFormed) (o : SimplifyOptions)
    (htame : Tame.Optional True p.statements) {env : Env} {s t : State} (hends : p.Ends s env t) :
    ∃ env' t', (p.simpler o).Ends s env' t' ∧ SameOutcome env t env' t' := by
  obtain ⟨fuel, hrun⟩ := hends
  obtain ⟨r, u, hblock, hend⟩ := bind_eq_ok hrun
  have hfollows : Follows (simplifying o) unlinked
      (execBlock (callAt fuel) fuel [] p.statements)
      (execBlock (callAt fuel) fuel [] (p.simpler o).statements) ResultRel :=
    follows_block (respects_simplified o fuel) (fun pins => respects_same pins fuel) htame
      ⟨h.nodup, fun _ _ => rfl, h.own⟩ ⟨nofun, nofun⟩
  obtain ⟨⟨flow', env'⟩, t', ρ, hblock', -, ht, hflow, henv⟩ :=
    hfollows le_rfl (stateRel_unlinked _ s) hblock
  obtain ⟨flow, env₁⟩ := r
  dsimp only at hflow henv
  cases hflow with
  | onward =>
    obtain ⟨rfl, rfl⟩ := pure_eq_ok hend
    exact ⟨env', t', ⟨fuel, bind_of_ok hblock'⟩, sameOutcome_of_linked ht henv⟩
  | _ => cases hend

namespace CompileOptions

variable {o : CompileOptions} {source : String}

/-- Simplification preserves behaviour: if a program has no expression of type `float` and no call in
an operand of `*`, `/` or `^`, then for each of its runs that ends normally, the simplified program
has a run from the same state that ends normally, prints the same and leaves the same values in the
top-level variables, however many iterations of loops are written out. -/
theorem simplify_preserves_outcome {q : Program} (h : o.analyze source = .ok q)
    (options : SimplifyOptions) (hfloat : Node.everyIn Node.notFloat q.statements = true)
    (hcalls : Node.everyIn Node.plainFactors q.statements = true) {env : Env} {s t : State}
    (hends : q.Ends s env t) :
    ∃ r, q.simplify options = .ok r ∧ ∃ env' t', r.Ends s env' t' ∧ SameOutcome env t env' t' := by
  have hq := wellFormed_of_analyze h
  have htame := Tame.optional_of_every hfloat hcalls (.inl trivial)
  exact ⟨q.simpler options, hq.simplify_eq options, hq.ends_simpler options htame hends⟩

def lemonade : String :=
  "slice total = 0
  When life gives you lemons try slice twice(slice n) BEGIN JUICING
    you get lemonade and n * 2
  END JUICING
  forEachLemon (slice i = 0; i < 3; i++) BEGIN JUICING
    total += twice(i) + 0
    pour(total)
  END JUICING
  Squeeze the lemon if (sweet) BEGIN JUICING
    slice rest = total * 1
    pour(rest ^ 0)
  END JUICING"

def number? : Picture → Option Int
  | .int n => some n
  | _ => none

/-- The numbers that a program prints, if it is known to behave the same when it is simplified. -/
def printed? (source : String) (fuel : Nat) : Option (List (Option Int)) :=
  match (default : CompileOptions).analyze source with
  | .ok q =>
    if Node.everyIn Node.notFloat q.statements && Node.everyIn Node.plainFactors q.statements then
      match q.run fuel ⟨[], []⟩ with
      | .ok (_, t) => some (t.output.map number?)
      | .error _ => none
    else none
  | .error _ => none

theorem of_printed? {fuel : Nat} {numbers : List (Option Int)}
    (h : printed? source fuel = some numbers) :
    ∃ q env t, (default : CompileOptions).analyze source = .ok q ∧
      Node.everyIn Node.notFloat q.statements ∧
      Node.everyIn Node.plainFactors q.statements ∧ q.Ends ⟨[], []⟩ env t ∧
      t.output.map number? = numbers := by
  unfold printed? at h
  split at h
  · next q hq =>
    split at h
    · next hconditions =>
      rw [Bool.and_eq_true] at hconditions
      split at h
      · next env t hrun =>
        exact ⟨q, env, t, hq, hconditions.1, hconditions.2, ⟨fuel, hrun⟩, Option.some.inj h⟩
      · cases h
    · cases h
  · cases h

theorem simplify_preserves_outcome_lemonade :
    ∃ q env t, (default : CompileOptions).analyze lemonade = .ok q ∧ q.Ends ⟨[], []⟩ env t ∧
      t.output.map number? = [some 0, some 2, some 6, some 1] ∧
      ∃ r, q.simplify ⟨64⟩ = .ok r ∧ ∃ env' t', r.Ends ⟨[], []⟩ env' t' ∧
        SameOutcome env t env' t' := by
  have hprinted : printed? lemonade 20 = some [some 0, some 2, some 6, some 1] := by
    decide +kernel
  obtain ⟨q, env, t, hq, hfloat, hcalls, hends, houtput⟩ := of_printed? hprinted
  exact ⟨q, env, t, hq, hends, houtput, simplify_preserves_outcome hq ⟨64⟩ hfloat hcalls hends⟩

end CompileOptions

end LemonScript
