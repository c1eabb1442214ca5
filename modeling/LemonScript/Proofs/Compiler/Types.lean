import LemonScript.Proofs.Compiler.Script
import LemonScript.Proofs.Simplify.Sound
import LemonScript.Proofs.Typing.Placed
/-!
# The types of an accepted program

All nodes of an accepted program are sound, whether it is simplified or not. So its expressions obey the
typing rules, and simplifying any of them keeps its type.
-/

namespace LemonScript

/-- Whether a node is an expression, or one of the forms that change a variable in place. -/
def Node.isExpression : Node → Bool
  | .call .. | .binary .. | .unary .. | .arrayLit .. | .mapLit .. | .member .. | .property .. | .ident _
  | .intLit _ | .floatLit _ | .stringLit _ | .boolLit .. | .var _ | .fn _ => true
  | _ => false

namespace Program

/-- All expressions of the program obey the typing rules, and each of them can be simplified to one of the
same type that obeys the rules as well. -/
def KeepsTypes (p : Program) : Prop :=
  p.node.AllParts Node.Obeys ∧ ∀ e, e.PartOf p.node → e.isExpression = true →
    ∃ e', Simplify.expression e = .ok e' ∧ e'.typeOf = e.typeOf ∧ e'.AllParts Node.Obeys

variable {p : Program}

theorem WellFormed.simple_of_isExpression (h : p.WellFormed) {e : Node} (he : e.PartOf p.node)
    (hexpression : e.isExpression = true) : ∃ Γ, Scoped.Update Γ e ∨ Scoped.Expression Γ e := by
  rcases h.beneath he with rfl | rfl | ⟨Γ, hplaced, -⟩
  · cases hexpression
  · cases hexpression
  · refine ⟨Γ, ?_⟩
    have hstatement := hplaced.inScope
    cases e <;> first | exact hstatement | cases hexpression

theorem WellFormed.keepsTypes {R : Roster} (h : p.WellFormed) (hsound : p.node.IsSound R) : p.KeepsTypes := by
  refine ⟨fun m hm => (hsound m hm).obeys, fun e he hexpression => ?_⟩
  have hfits := Simplify.fits_simpler fun m hm => hsound m (hm.trans he)
  refine ⟨Simplify.simpler e, ?_, hfits.typeOf, fun m hm => (hfits.sound m hm).obeys⟩
  obtain ⟨Γ, hupdate | hexpression⟩ := h.simple_of_isExpression he hexpression
  · exact Simplify.expression_eq_of_update hupdate
  · exact Simplify.expression_eq hexpression

end Program

namespace CompileOptions

variable {o : CompileOptions} {source : String} {q r : Program}

theorem exists_isSound (h : o.analyze source = .ok q) (hr : r = q ∨ ∃ options, q.simplify options = .ok r) :
    ∃ R, r.node.IsSound R := by
  obtain ⟨p, hp, hq⟩ := parse_of_analyze h
  have hsurface := Program.surface_of_parse hp
  have hwell := wellFormed_of_analyze h
  have hsound := Program.isSound_of_analyze (Program.canonical_of_parse hp) hq
    (Program.erase_of_analyze hsurface hq) hwell (Program.decorates_of_analyze hsurface hq).lexical
  rcases hr with rfl | ⟨options, hr⟩
  · exact ⟨_, hsound⟩
  · rw [hwell.simplify_eq] at hr
    cases hr
    exact ⟨_, Program.isSound_simpler hsound options⟩

/-- In an accepted program simplification gives every expression one of the same type, in which the
typing rules hold of all nodes. They hold of all nodes that are left of the program when it is simplified,
those of the loops that are written out included. -/
theorem simplify_keeps_types (h : o.analyze source = .ok q) :
    q.KeepsTypes ∧ ∀ options, ∃ r, q.simplify options = .ok r ∧ r.KeepsTypes := by
  have hwell := wellFormed_of_analyze h
  obtain ⟨R, hsound⟩ := exists_isSound h (.inl rfl)
  refine ⟨hwell.keepsTypes hsound, fun options => ⟨q.simpler options, hwell.simplify_eq options, ?_⟩⟩
  exact (hwell.simpler options).keepsTypes (Program.isSound_simpler hsound options)

/-- A program with literals of all kinds, operators that are folded away, and a loop that is written out. -/
def cellar : String :=
  "<pulp, slice[]> jars = \x7b\"le\" + \"mon\": [2 ^ 3], \"lime\": []\x7d
  forEachLemon (slice i = 0; i < 2; i++) BEGIN JUICING
    jars.key(\"lime\") = [i * 1, 0 - i]
  END JUICING
  pour(!(jars.key(\"lime\")[0] == 1) && sweet)"

set_option maxRecDepth 2000 in
theorem simplify_keeps_types_cellar :
    ∃ q, (default : CompileOptions).analyze cellar = .ok q ∧ q.KeepsTypes ∧
      ∃ r, q.simplify ⟨2⟩ = .ok r ∧ r.KeepsTypes := by
  have hok : ((default : CompileOptions).analyze cellar).isOk = true := by
    rw [analyze, parse, Program.parse, Scanner.ofSource, cellar, String.toList_ofList]
    decide +kernel
  obtain ⟨q, hq⟩ := exists_of_isOk hok
  have hkeeps := simplify_keeps_types hq
  exact ⟨q, hq, hkeeps.1, hkeeps.2 ⟨2⟩⟩

end CompileOptions

end LemonScript
