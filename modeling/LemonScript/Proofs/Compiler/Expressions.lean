import LemonScript.Proofs.Compiler.Types
import LemonScript.Proofs.JavaScript.Unambiguous
/-!
# The expressions of an accepted program

Every expression of an accepted program, whether it is simplified or not, is written so that its text can be
read in one way only: JavaScript groups it as the tree, and no other expression has the same text.
-/

namespace LemonScript

open JavaScript

namespace Program

/-- An expression of the program whose names are in the table. -/
structure HasExpression (p : Program) (table : List Int) (n : Node) : Prop where
  partOf : n.PartOf p.node
  isExpression : n.isExpression = true
  covered : ∀ id ∈ writtenIds n, id ∈ table

/-- Over a fixed table every expression of the program has a text. JavaScript reads the text as the expression,
and no other expression of the program is written in this way. -/
def ReadsBack (p : Program) : Prop :=
  ∀ table n, p.HasExpression table n → ∃ text,
    (∀ s, s.met = table → ∃ s', expression n s = .ok (text, s') ∧ s'.met = table) ∧
    Term.ofText? text = some (termOf table n) ∧
    ∀ m s s', p.HasExpression table m → s.met = table → expression m s = .ok (text, s') → m = n

variable {p : Program} {E : Vocabulary} {R : Roster} {table : List Int}

theorem WellFormed.legible (h : p.WellFormed) (hE : Vocabulary.Optional E p.statements) (hsound : p.node.IsSound R)
    {n : Node} (hn : n.PartOf p.node) (hexpression : n.isExpression = true) : Legible R E n where
  sound m hm := hsound m (hm.trans hn)
  simple := h.simple_of_isExpression hn hexpression
  part := by
    rcases h.part hE hn with rfl | hpart
    · cases hexpression
    · exact hpart

theorem WellFormed.covered (h : p.WellFormed) (hE : Vocabulary.Optional E p.statements) (hsound : p.node.IsSound R)
    {n : Node} (hn : p.HasExpression table n) : Covered R E table n where
  toLegible := h.legible hE hsound hn.partOf hn.isExpression
  covered := hn.covered

theorem WellFormed.readsBack (h : p.WellFormed) (hE : Vocabulary.Optional E p.statements)
    (hsound : p.node.IsSound R) : p.ReadsBack := by
  intro table n hn
  have hcovered := h.covered hE hsound hn
  refine ⟨_, fun s hs => hcovered.expression_eq hs, (hcovered.wholeText table).ofText?_eq, fun m s s' hm hs hrun => ?_⟩
  have hcovered' := h.covered hE hsound hm
  obtain ⟨s'', hrun', -⟩ := hcovered'.expression_eq hs
  rw [hrun, Except.ok.injEq, Prod.mk.injEq] at hrun'
  exact eq_of_expressionText hcovered' hcovered hrun'.1.symm

end Program

namespace CompileOptions

variable {o : CompileOptions} {source : String} {q r : Program}

/-- The expressions of an accepted program are written without ambiguity, also when the program is simplified. -/
theorem expressions_read_back (h : o.analyze source = .ok q)
    (hr : r = q ∨ ∃ options, q.simplify options = .ok r) : r.ReadsBack := by
  obtain ⟨hwell, E, hE⟩ := exists_vocabulary h hr
  obtain ⟨R, hsound⟩ := exists_isSound h hr
  exact hwell.readsBack hE hsound

/-- A program with signs in front of numbers, names and operations, powers of them, and the kind of a value. -/
def tasting : String :=
  "slice n = -2
  When life gives you lemons try slice twice(slice k) BEGIN JUICING
    you get lemonade and k * 2
  END JUICING
  <pulp, slice[]> jars = \x7b\"lime\": [n, -2], \"lemon\": []\x7d
  pour(species(jars.key(\"lime\")[0] ^ 2))
  n += twice(-n)
  pour(!(n ^ 2 == -2 ^ 2) && sweet)"

set_option maxRecDepth 2000 in
theorem expressions_read_back_tasting :
    ∃ q, (default : CompileOptions).analyze tasting = .ok q ∧ q.ReadsBack ∧
      ∃ r, q.simplify ⟨2⟩ = .ok r ∧ r.ReadsBack := by
  have hok : ((default : CompileOptions).analyze tasting).isOk = true := by
    rw [analyze, parse, Program.parse, Scanner.ofSource, tasting, String.toList_ofList]
    decide +kernel
  obtain ⟨q, hq⟩ := exists_of_isOk hok
  have hr := (wellFormed_of_analyze hq).simplify_eq ⟨2⟩
  exact ⟨q, hq, expressions_read_back hq (.inl rfl), _, hr, expressions_read_back hq (.inr ⟨_, hr⟩)⟩

end CompileOptions

end LemonScript
