import LemonScript.Proofs.Compiler.Safety
import LemonScript.Proofs.Simplify.Idempotent
/-!
# Repeated passes

Simplifying a program that was simplified changes nothing, so the JavaScript is the same after every
pass but the first.
-/

namespace LemonScript

namespace CompileOptions

variable {o : CompileOptions} {source : String}

theorem scripts_eq_replicate {r : Program} {text : String} (hr : r.simplify o.simplify = .ok r)
    (htext : r.javaScript = .ok text) (count : Nat) :
    o.scripts r count = .ok (List.replicate (count + 1) text) := by
  induction count with
  | zero =>
    simp only [scripts, htext]
    rfl
  | succ count ih =>
    simp only [scripts, htext, hr, ih, bind, Except.bind]
    rfl

/-- A second pass gives the very tree that the first one gave, with the same absent and empty blocks.
So the text that is written after any number of passes is the one after the first. -/
theorem simplify_idempotent {q : Program} (h : o.analyze source = .ok q) :
    ∃ r first text, q.simplify o.simplify = .ok r ∧ r.simplify o.simplify = .ok r ∧
      q.javaScript = .ok first ∧ r.javaScript = .ok text ∧
      ∀ count, o.passes source (count + 1) = .ok (first :: List.replicate (count + 1) text) := by
  have hq := writable_of_analyze h
  have hr := hq.simpler o.simplify
  obtain ⟨first, hfirst⟩ := hq.javaScript
  obtain ⟨text, htext⟩ := hr.javaScript
  have honce := hq.simplify_eq o.simplify
  have htwice : (q.simpler o.simplify).simplify o.simplify = .ok (q.simpler o.simplify) := by
    rw [hr.simplify_eq, hq.simpler_twice]
  refine ⟨q.simpler o.simplify, first, text, honce, htwice, hfirst, htext, fun count => ?_⟩
  simp only [passes, h, scripts, hfirst, honce, scripts_eq_replicate htwice htext, bind, Except.bind]
  rfl

def nestedLoop : String :=
  "Squeeze the lemon if (sweet) BEGIN JUICING forEachLemon (slice i = 0; i < 2; i++)" ++
    " BEGIN JUICING pour(i * 1) END JUICING END JUICING"

theorem simplify_idempotent_nestedLoop :
    ∃ q, (default : CompileOptions).analyze nestedLoop = .ok q ∧
      ∃ r first text, q.simplify (default : CompileOptions).simplify = .ok r ∧
        r.simplify (default : CompileOptions).simplify = .ok r ∧
        q.javaScript = .ok first ∧ r.javaScript = .ok text ∧
        ∀ count, (default : CompileOptions).passes nestedLoop (count + 1) =
          .ok (first :: List.replicate (count + 1) text) := by
  have hok : ((default : CompileOptions).analyze nestedLoop).isOk = true := by decide +kernel
  obtain ⟨q, hq⟩ := exists_of_isOk hok
  exact ⟨q, hq, simplify_idempotent hq⟩

end CompileOptions

end LemonScript
