import LemonScript.Compiler
import LemonScript.Proofs.Grammar.Parsed
import LemonScript.Proofs.JavaScript.Written
import LemonScript.Proofs.Simplify.Vocabulary
import LemonScript.Proofs.Simplify.WellFormed
import LemonScript.Proofs.Typing.Analyzed
import LemonScript.Proofs.Typing.Vocabulary
/-!
# No stage of the compiler meets a fault

What is wrong with a source is a mistake in it: it breaks the grammar, it has a number out of range, or
its names and types do not fit. A source without mistakes gives a well-formed program, which stays well
formed when it is simplified and can be written as JavaScript.
-/

namespace LemonScript

/-- A well-formed program whose entities have the names of a vocabulary, so that it can be written. -/
structure Program.Writable (p : Program) : Prop extends p.WellFormed where
  vocabulary : ∃ E, Vocabulary.Optional E p.statements

namespace Program

variable {p q : Program}

theorem Analyzed.writable (hp : p.Surface) (h : p.Analyzed q) : q.Writable := by
  have herase : q.erase = p := by rw [Program.erase, h.imports_eq, h.decorates.erase_eq]
  exact ⟨h.wellFormed, _, tree_vocabulary h.wellFormed h.decorates.lexical (herase ▸ hp)⟩

theorem Writable.simpler (h : p.Writable) (options : SimplifyOptions) : (p.simpler options).Writable := by
  obtain ⟨E, hE⟩ := h.vocabulary
  exact ⟨h.toWellFormed.simpler options, _, Vocabulary.optional_block options hE⟩

theorem Writable.javaScript (h : p.Writable) : ∃ text, p.javaScript = .ok text := by
  obtain ⟨E, hE⟩ := h.vocabulary
  obtain ⟨head, s, -, -, htext⟩ := p.exists_text h.inScope hE
  exact ⟨_, htext⟩

end Program

def CompileError.IsMistake : CompileError → Prop
  | .parse (.syntactic _) | .parse (.aborted (.outOfRange _)) | .analysis (.semantic _) => True
  | _ => False

/-- What a stage gives: a tree that was analyzed is well formed. -/
def StageResult.Sound (stage : Option Stage) : StageResult → Prop
  | .tree p => stage = some .tree ∨ p.WellFormed
  | .text _ => True

/-- The computation gives something with `P`, or it finds a mistake in the source. -/
def Answers {α : Type} (P : α → Prop) : Except CompileError α → Prop
  | .ok a => P a
  | .error e => e.IsMistake

theorem Answers.bind {α β : Type} {P : α → Prop} {Q : β → Prop} {m : Except CompileError α}
    {f : α → Except CompileError β} (hm : Answers P m) (hf : ∀ a, P a → Answers Q (f a)) :
    Answers Q (m >>= f) := by
  cases m with
  | ok a => exact hf a hm
  | error e => exact hm

namespace CompileOptions

variable (o : CompileOptions) (source : String)

theorem answers_parse : Answers Program.Surface (o.parse source) := by
  unfold parse
  rcases Program.parse_cases o.filename source with ⟨p, hp, hsurface, -⟩ | ⟨e, he⟩ | ⟨digits, he⟩
  · rw [hp]
    exact hsurface
  · rw [he]
    trivial
  · rw [he]
    trivial

theorem answers_analyze : Answers Program.Writable (o.analyze source) := by
  refine (o.answers_parse source).bind fun p hp => ?_
  rcases Program.analyze_cases hp with ⟨q, hq, hanalyzed⟩ | ⟨e, he⟩
  · rw [hq]
    exact hanalyzed.writable hp
  · rw [he]
    trivial

variable {o source}

theorem writable_of_analyze {q : Program} (h : o.analyze source = .ok q) : q.Writable := by
  have hanswers := o.answers_analyze source
  rw [h] at hanswers
  exact hanswers

theorem wellFormed_of_analyze {q : Program} (h : o.analyze source = .ok q) : q.WellFormed :=
  (writable_of_analyze h).toWellFormed

/-- However far an analyzed program is simplified, the result is well formed: every use of a variable
or a function lies in the scope of its declaration, every jump has a place to go to, and no entity is
declared twice. -/
theorem simplify_wellFormed {q : Program} (h : o.analyze source = .ok q) (options : SimplifyOptions) :
    ∃ r, q.simplify options = .ok r ∧ r.WellFormed :=
  ⟨q.simpler options, (wellFormed_of_analyze h).simplify_eq options, (wellFormed_of_analyze h).simpler options⟩

theorem exists_of_isOk (h : (o.analyze source).isOk) : ∃ q, o.analyze source = .ok q := by
  cases hq : o.analyze source with
  | ok q => exact ⟨q, rfl⟩
  | error e =>
    rw [hq] at h
    exact absurd h (by simp [Except.isOk, Except.toBool])

/-- A loop that is written out. -/
theorem simplify_wellFormed_loop :
    ∃ q, (default : CompileOptions).analyze
        "forEachLemon (slice i = 0; i < 2; i++) BEGIN JUICING pour(i * 10) END JUICING" = .ok q ∧
      ∃ r, q.simplify ⟨2⟩ = .ok r ∧ r.WellFormed := by
  have hok : ((default : CompileOptions).analyze
      "forEachLemon (slice i = 0; i < 2; i++) BEGIN JUICING pour(i * 10) END JUICING").isOk = true := by
    decide +kernel
  obtain ⟨q, hq⟩ := exists_of_isOk hok
  exact ⟨q, hq, simplify_wellFormed hq ⟨2⟩⟩

end CompileOptions

end LemonScript
