import LemonScript.Proofs.Compiler.Decoration
import LemonScript.Proofs.JavaScript.Labels
import LemonScript.Proofs.JavaScript.Names
import LemonScript.Proofs.JavaScript.Renumber
import LemonScript.Proofs.Simplify.Renumber
/-!
# The script of an accepted program

What holds of the JavaScript of every program that analysis accepts, whether it is simplified or not: its
jumps go where they have to, its names are those of the entities, and the numbers of entities do not show.
-/

namespace LemonScript

open JavaScript

def JavaScript.helperRoles : List Role := .opens .function :: (List.replicate 5 .plain ++ [.closes])

def JavaScript.textNames (text : String) : Option (List Occurrence) :=
  (readText text).map (·.flatMap (·.names))

namespace Program

/-- The text of the program can be read, and following its lines leads every jump to the place that the
tree has for it. Every label that is used stands in front of one block only. -/
def JumpsArrive (p : Program) : Prop :=
  ∃ text readings helper, p.javaScript = .ok text ∧ readText text = some readings ∧
    (helper = [] ∨ helper = helperRoles) ∧
    followAll 0 [] (readings.map (·.row)) =
      some (helper ++ blockPlan p.statements helper.length ⟨none, none⟩, []) ∧
    (∀ role ∈ blockPlan p.statements helper.length ⟨none, none⟩, role.hasTarget = true) ∧
    ∀ label ∈ (readings.map (·.row)).filterMap Row.used?,
      ((readings.map (·.row)).filterMap Row.placed?).count label = 1

/-- The text of the program can be read, and its names rename the entities of the tree. -/
def NamesRename (p : Program) : Prop :=
  ∃ text names, p.javaScript = .ok text ∧ textNames text = some names ∧ Renames names p.mentions

variable {p : Program} {E : Vocabulary}

/-- The lines of a well formed program do what the tree plans, wherever they start. -/
theorem WellFormed.follow_readings (h : p.WellFormed) (hE : Vocabulary.Optional E p.statements) (i : Nat) :
    followAll i [] ((blockReadings p.table p.statements ⟨0, []⟩).1.map (·.row)) =
        some (blockPlan p.statements i ⟨none, none⟩, []) ∧
      ∀ role ∈ blockPlan p.statements i ⟨none, none⟩, role.hasTarget := by
  obtain ⟨hfills, hexecutes⟩ := executes_block h.inScope hE ⟨0, []⟩
  have hframes : Fills (blockReadings p.table p.statements ⟨0, []⟩).2.frames [] := by
    rw [List.forall₂_nil_left_iff.mp hfills]
    exact .nil
  obtain ⟨T, hT, hrows⟩ := hexecutes [] ⟨none, none⟩ [] [] i hframes .top False.elim rfl
  obtain rfl : T = [] := hT
  exact hrows

theorem follow_helper {helper : List Reading} (h : helper = [] ∨ helper = helperReadings) :
    ∃ roles, (roles = [] ∨ roles = helperRoles) ∧
      followAll 0 [] (helper.map (·.row)) = some (roles, []) ∧
      (helper.map (·.row)).filterMap Row.used? = [] ∧ (helper.map (·.row)).filterMap Row.placed? = [] := by
  rcases h with rfl | rfl
  · exact ⟨[], .inl rfl, rfl, rfl, rfl⟩
  · exact ⟨helperRoles, .inr rfl, rfl, rfl, rfl⟩

theorem WellFormed.jumpsArrive (h : p.WellFormed) (hE : Vocabulary.Optional E p.statements) : p.JumpsArrive := by
  obtain ⟨text, helper, htext, hhelper, hread⟩ := readText_javaScript h.inScope hE
  obtain ⟨roles, hroles, hfollow, hused, hplaced⟩ := follow_helper hhelper
  obtain ⟨hbody, htargets⟩ := h.follow_readings hE roles.length
  refine ⟨text, _, roles, htext, hread, hroles, ?_, htargets, ?_⟩
  · rw [List.map_append, followAll_append hfollow, Nat.zero_add, hbody]
    rfl
  · rw [List.map_append, List.filterMap_append, List.filterMap_append, hused, hplaced]
    exact fun label hlabel => count_placed_of_used p.table p.statements hlabel

theorem WellFormed.namesRename (h : p.WellFormed) (hE : Vocabulary.Optional E p.statements) : p.NamesRename := by
  obtain ⟨text, helper, htext, hhelper, hread⟩ := readText_javaScript h.inScope hE
  have hnone : helper.flatMap (·.names) = [] := by
    rcases hhelper with rfl | rfl <;> rfl
  have hnames : textNames text = some (p.mentions.map (occurrence p.table)) := by
    rw [textNames, hread, Option.map_some, List.flatMap_append, hnone, shows_block p.statements]
    rfl
  have haccounted : Accounted ∅ (Node.declaredIn p.statements) p.mentions :=
    (Scoped.accounted_block h.inScope h.own).mono (by simp [Site.entities, Site.top])
  exact ⟨text, _, htext, hnames, renames_mentions (Vocabulary.spans_optional hE) haccounted h.nodup⟩

end Program

namespace CompileOptions

variable {o : CompileOptions} {source : String} {q r : Program}

theorem parse_of_analyze (h : o.analyze source = .ok q) :
    ∃ p, Program.parse o.filename source = .ok p ∧ p.analyze = .ok q := by
  unfold analyze parse at h
  cases hparse : Program.parse o.filename source with
  | error e =>
    rw [hparse] at h
    cases h
  | ok p =>
    rw [hparse] at h
    cases hanalyze : p.analyze with
    | error e =>
      simp [Except.mapError, bind, Except.bind, hanalyze] at h
    | ok q' =>
      simp [Except.mapError, bind, Except.bind, hanalyze] at h
      exact ⟨p, rfl, h ▸ hanalyze⟩

theorem exists_vocabulary (h : o.analyze source = .ok q) (hr : r = q ∨ ∃ options, q.simplify options = .ok r) :
    r.WellFormed ∧ ∃ E, Vocabulary.Optional E r.statements := by
  have hq := writable_of_analyze h
  rcases hr with rfl | ⟨options, hr⟩
  · exact ⟨hq.toWellFormed, hq.vocabulary⟩
  · rw [hq.simplify_eq] at hr
    obtain rfl := Except.ok.inj hr
    exact ⟨(hq.simpler options).toWellFormed, (hq.simpler options).vocabulary⟩

/-- A program with jumps out of nested loops and switches, two variables of one name, and a function. -/
def orchard : String :=
  "slice n = 0
  When life gives you lemons try slice twice(slice k) BEGIN JUICING
    you get lemonade and k * 2
  END JUICING
  Drink the lemonade while (n < 9) BEGIN JUICING
    forEachLemon (slice i = 0; i < 4; i++) BEGIN JUICING
      Pick (n) BEGIN JUICING
        lemonCase 2 chop
        citrusLimon nextLemon
      END JUICING
    END JUICING
    forEachLemon (slice i = 0; i < 2; i++) BEGIN JUICING pour(twice(i)) END JUICING
    Squeeze the lemon if (n == 7) BEGIN JUICING n++ chop END JUICING
  END JUICING"

set_option maxRecDepth 2000 in
theorem isOk_orchard : ((default : CompileOptions).analyze orchard).isOk := by
  -- The characters are taken out of the string first, since the kernel is slow to decode one.
  rw [analyze, parse, Program.parse, Scanner.ofSource, orchard, String.toList_ofList]
  decide +kernel

/-- However loops, switches and functions nest in an accepted program, every jump of its text arrives
where it has to. -/
theorem jumps_arrive (h : o.analyze source = .ok q) (hr : r = q ∨ ∃ options, q.simplify options = .ok r) : r.JumpsArrive := by
  obtain ⟨hwell, E, hE⟩ := exists_vocabulary h hr
  exact hwell.jumpsArrive hE

theorem jumps_arrive_orchard :
    ∃ q r, (default : CompileOptions).analyze orchard = .ok q ∧ q.simplify ⟨2⟩ = .ok r ∧
      q.JumpsArrive ∧ r.JumpsArrive := by
  obtain ⟨q, hq⟩ := exists_of_isOk isOk_orchard
  have hr := (wellFormed_of_analyze hq).simplify_eq ⟨2⟩
  exact ⟨q, q.simpler ⟨2⟩, hq, hr, jumps_arrive hq (.inl rfl), jumps_arrive hq (.inr ⟨⟨2⟩, hr⟩)⟩

/-- The names in the text of an accepted program rename its entities: those of one entity are the same,
those of different ones are not, and each is declared once. -/
theorem names_rename (h : o.analyze source = .ok q) (hr : r = q ∨ ∃ options, q.simplify options = .ok r) : r.NamesRename := by
  obtain ⟨hwell, E, hE⟩ := exists_vocabulary h hr
  exact hwell.namesRename hE

theorem names_rename_orchard :
    ∃ q r, (default : CompileOptions).analyze orchard = .ok q ∧ q.simplify ⟨2⟩ = .ok r ∧
      q.NamesRename ∧ r.NamesRename := by
  obtain ⟨q, hq⟩ := exists_of_isOk isOk_orchard
  have hr := (wellFormed_of_analyze hq).simplify_eq ⟨2⟩
  exact ⟨q, q.simpler ⟨2⟩, hq, hr, names_rename hq (.inl rfl), names_rename hq (.inr ⟨⟨2⟩, hr⟩)⟩

/-- A program with other numbers for its entities is simplified in the same way, and its text is the
same. -/
theorem renumber_unobservable (h : o.analyze source = .ok q) (options : SimplifyOptions) (e : Renumbering) :
    ∃ s text script, q.simplify options = .ok s ∧ (q.renumber e).simplify options = .ok (s.renumber e) ∧
      q.javaScript = .ok text ∧ (q.renumber e).javaScript = .ok text ∧
      s.javaScript = .ok script ∧ (s.renumber e).javaScript = .ok script := by
  have hq := writable_of_analyze h
  have hsimplify := hq.simplify_eq options
  obtain ⟨text, htext⟩ := hq.javaScript
  obtain ⟨script, hscript⟩ := (hq.simpler options).javaScript
  refine ⟨q.simpler options, text, script, hsimplify, ?_, htext, ?_, hscript, ?_⟩
  · rw [Program.simplify_renumber, hsimplify]
    rfl
  · rw [Program.javaScript_renumber, htext]
  · rw [Program.javaScript_renumber, hscript]

/-- All entities of a program get the next number. -/
def next : Renumbering where
  toFun id := if id < Library.firstUserId then id else id + 1
  injective := by
    intro a b h
    dsimp only at h
    split at h <;> split at h <;> omega
  functions := by decide
  constants := by decide

theorem renumber_unobservable_orchard :
    ∃ q, (default : CompileOptions).analyze orchard = .ok q ∧
      ∃ s text script, q.simplify ⟨2⟩ = .ok s ∧ (q.renumber next).simplify ⟨2⟩ = .ok (s.renumber next) ∧
        q.javaScript = .ok text ∧ (q.renumber next).javaScript = .ok text ∧
        s.javaScript = .ok script ∧ (s.renumber next).javaScript = .ok script := by
  obtain ⟨q, hq⟩ := exists_of_isOk isOk_orchard
  exact ⟨q, hq, renumber_unobservable hq ⟨2⟩ next⟩

end CompileOptions

end LemonScript
