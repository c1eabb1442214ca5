import LemonScript.Build.Directory
import LemonScript.Proofs.Compiler.Safety
import LemonScript.Proofs.Grammar.Memory
import LemonScript.Proofs.Text.Utf8
/-!
# Building a directory

A directory is built as one program whose parts are its sources in the order of their names. In what
order its entries are listed does not matter, since no two of them have the same name. The first source
that cannot be read decides the error, before anything is analyzed, and a directory with one source is
built as the compiler compiles that source.
-/

namespace LemonScript

/-! ### The sources of a directory -/

/-- The sources among the entries of a directory, in ascending order of the bytes of their names. -/
structure SourcesInOrder (entries : List DirEntry) (files : List SourceFile) : Prop where
  mem_iff : ∀ f : SourceFile,
    f ∈ files ↔ ⟨f.name, some f.text⟩ ∈ entries ∧ ".lemon".toList <:+ f.name.toList
  ascending : files.Pairwise fun f g => f.name.toUTF8.toList < g.name.toUTF8.toList

variable {entries : List DirEntry} {files : List SourceFile} {programs : List Program}

theorem SourcesInOrder.nodup (h : SourcesInOrder entries files) : files.Nodup := by
  refine h.ascending.imp ?_
  rintro f _ hlt rfl
  exact List.lt_irrefl _ hlt

theorem SourcesInOrder.unique {files' : List SourceFile} (h : SourcesInOrder entries files)
    (h' : SourcesInOrder entries files') : files = files' := by
  refine List.Perm.eq_of_pairwise ?_ h.ascending h'.ascending ?_
  · intro f g _ _ hfg hgf
    exact absurd hgf (List.lt_asymm hfg)
  · refine (List.perm_ext_iff_of_nodup h.nodup h'.nodup).2 fun f => ?_
    rw [h.mem_iff, h'.mem_iff]

theorem SourcesInOrder.of_perm {listing : List DirEntry} (h : SourcesInOrder entries files)
    (hperm : listing.Perm entries) : SourcesInOrder listing files :=
  ⟨fun f => by rw [h.mem_iff, hperm.mem_iff], h.ascending⟩

namespace SourceFile

theorem ofEntry?_eq_some {e : DirEntry} {f : SourceFile} :
    ofEntry? e = some f ↔ e = ⟨f.name, some f.text⟩ ∧ ".lemon".toList <:+ f.name.toList := by
  obtain ⟨name, text⟩ := e
  obtain ⟨name', text'⟩ := f
  simp only [ ofEntry?, isSourceName, extension, Option.ite_none_right_eq_some, List.isSuffixOf_iff_suffix,
    Option.map_eq_some_iff, SourceFile.mk.injEq, DirEntry.mk.injEq]
  constructor
  · rintro ⟨hname, t, rfl, rfl, rfl⟩
    exact ⟨⟨rfl, rfl⟩, hname⟩
  · rintro ⟨⟨rfl, rfl⟩, hname⟩
    exact ⟨hname, text', rfl, rfl, rfl⟩

theorem sourcesInOrder_ofEntries (hnames : (entries.map DirEntry.name).Nodup) :
    SourcesInOrder entries (ofEntries entries) := by
  have hperm := List.mergeSort_perm (entries.filterMap ofEntry?) fun a b => a.name ≤ b.name
  have happart : (ofEntries entries).Pairwise fun f g => f.name ≠ g.name := by
    refine hperm.symm.pairwise (List.pairwise_filterMap.2 ?_) fun hne => hne.symm
    refine (List.pairwise_map.1 hnames).imp ?_
    intro a b hne f hf g hg heq
    rw [(ofEntry?_eq_some.1 hf).1, (ofEntry?_eq_some.1 hg).1] at hne
    exact hne heq
  have hsorted : (ofEntries entries).Pairwise fun f g => f.name ≤ g.name := by
    have hpairs : (ofEntries entries).Pairwise fun f g => decide (f.name ≤ g.name) = true :=
      List.pairwise_mergeSort (fun a b c => by simpa using le_trans)
        (fun a b => by simpa using le_total a.name b.name) (entries.filterMap ofEntry?)
    exact hpairs.imp of_decide_eq_true
  refine ⟨fun f => ?_, happart.imp₂ (fun f g hne hle => ?_) hsorted⟩
  · rw [ofEntries, hperm.mem_iff, List.mem_filterMap]
    constructor
    · rintro ⟨e, he, hf⟩
      obtain ⟨rfl, hname⟩ := ofEntry?_eq_some.1 hf
      exact ⟨he, hname⟩
    · rintro ⟨he, hname⟩
      exact ⟨_, he, ofEntry?_eq_some.2 ⟨rfl, hname⟩⟩
  · exact (lt_iff_bytes_lt _ _).1 (lt_of_le_of_ne hle hne)

end SourceFile

/-! ### Errors of the grammar -/

/-- The error is one of the file with this name: a syntax error that carries the name, or a number out of
range. -/
def ParseError.Concerns (filename : String) : ParseError → Prop
  | .syntactic e => e.location.filename = filename
  | .aborted (.outOfRange _) => True
  | .aborted .tooDeep => False

theorem Program.concerns_of_parse {filename source : String} {e : ParseError}
    (h : Program.parse filename source = .error e) : e.Concerns filename := by
  rcases Program.parse_cases filename source with ⟨p, hp, -⟩ | ⟨e', he⟩ | ⟨digits, he⟩
  · rw [hp] at h
    cases h
  · rw [he] at h
    cases h
    obtain ⟨notes, c, rfl⟩ := Grammar.error_of_parseFrom (ParseState.faithful_ofSource filename source _) he
    exact Scanner.filename_noteAll _ notes
  · rw [he] at h
    cases h
    trivial

/-! ### One program -/

theorem mapM_cases {ε α β : Type} (f : α → Except ε β) (as : List α) :
    (∃ bs, as.mapM f = .ok bs ∧ List.Forall₂ (fun a b => f a = .ok b) as bs) ∨
    ∃ before a after e, as = before ++ a :: after ∧ (∀ a' ∈ before, ∃ b, f a' = .ok b) ∧
      f a = .error e ∧ as.mapM f = .error e := by
  induction as with
  | nil => exact .inl ⟨[], rfl, .nil⟩
  | cons a as ih =>
    rw [List.mapM_cons]
    cases hfirst : f a with
    | error e => exact .inr ⟨[], a, as, e, rfl, by simp, hfirst, rfl⟩
    | ok b =>
      rcases ih with ⟨bs, hbs, hall⟩ | ⟨before, a', after, e, rfl, hbefore, herror, hrest⟩
      · rw [hbs]
        exact .inl ⟨b :: bs, rfl, .cons hfirst hall⟩
      · rw [hrest]
        refine .inr ⟨a :: before, a', after, e, rfl, ?_, herror, rfl⟩
        simpa [hfirst] using hbefore

/-- The program has the imports and the statements of the others, one behind the other. -/
structure Program.Joins (whole : Program) (programs : List Program) : Prop where
  imports : whole.imports = programs.flatMap Program.imports
  statements : whole.statements.getD [] = programs.flatMap fun p => p.statements.getD []
  absent_of_nil : whole.statements ≠ some []

theorem Program.joins_concat (programs : List Program) : (concat programs).Joins programs := by
  unfold concat
  split
  · next hnil => exact ⟨rfl, hnil.symm, by simp⟩
  · next hne => exact ⟨rfl, rfl, by simpa using hne⟩

theorem Program.Joins.unique {p q : Program} (hp : p.Joins programs) (hq : q.Joins programs) :
    p = q := by
  obtain ⟨imports, statements⟩ := p
  obtain ⟨imports', statements'⟩ := q
  obtain rfl : imports = imports' := hp.imports.trans hq.imports.symm
  have hsame := hp.statements.trans hq.statements.symm
  have hsome := hp.absent_of_nil
  have hsome' := hq.absent_of_nil
  cases statements <;> cases statements' <;> simp_all

theorem Program.Joins.surface {whole : Program} (hjoins : whole.Joins programs)
    (h : ∀ p ∈ programs, p.Surface) : whole.Surface := by
  refine ⟨fun i hi => ?_, Surface.optional_iff.2 ⟨hjoins.absent_of_nil, fun n hn => ?_⟩⟩
  · rw [hjoins.imports, List.mem_flatMap] at hi
    obtain ⟨p, hp, hi⟩ := hi
    exact (h p hp).imports i hi
  · rw [hjoins.statements, List.mem_flatMap] at hn
    obtain ⟨p, hp, hn⟩ := hn
    exact (Surface.optional_iff.1 (h p hp).statements).2 n hn

theorem Program.concat_singleton {p : Program} (h : p.Surface) : concat [p] = p :=
  (joins_concat [p]).unique
    ⟨by simp, by simp, (Surface.optional_iff.1 h.statements).1⟩

theorem SourceFile.surface_of_parse (h : List.Forall₂ (fun f p => f.parse = .ok p) files programs) :
    ∀ p ∈ programs, p.Surface := by
  induction h with
  | nil => simp
  | cons hfirst _ ih => exact List.forall_mem_cons.2 ⟨Program.surface_of_parse hfirst, ih⟩

/-! ### The answer -/

/-- What the build of a directory with these sources answers. -/
inductive BuildAnswer (m : ModuleSettings) (files : List SourceFile) :
    Except CompileError (Program × String) → Prop
  /-- A source cannot be read, and all before it can. -/
  | unreadable {before after : List SourceFile} {f : SourceFile} {e : ParseError}
      (split : files = before ++ f :: after) (readable : ∀ g ∈ before, ∃ p, g.parse = .ok p)
      (error : f.parse = .error e) (concerns : e.Concerns f.name) :
      BuildAnswer m files (.error (.parse e))
  /-- All sources can be read, and together they have a mistake. -/
  | rejected {programs : List Program} {whole : Program} {e : SemanticError}
      (readable : List.Forall₂ (fun f p => f.parse = .ok p) files programs)
      (joins : whole.Joins programs) (error : whole.analyze = .error (.semantic e)) :
      BuildAnswer m files (.error (.analysis (.semantic e)))
  /-- All sources can be read, and together they make a program. -/
  | built {programs : List Program} {whole analyzed result : Program} {script : String}
      (readable : List.Forall₂ (fun f p => f.parse = .ok p) files programs)
      (joins : whole.Joins programs) (analysis : whole.analyze = .ok analyzed)
      (simplified : if m.optimize then analyzed.simplify (.ofRequest m.maxUnroll) = .ok result
        else result = analyzed)
      (generated : result.javaScript = .ok script) :
      BuildAnswer m files (.ok (result, script))

namespace ModuleSettings

theorem simplified_of_writable (m : ModuleSettings) {q : Program} (hq : q.Writable) :
    ∃ r, m.simplified q = .ok r ∧ r.Writable ∧
      if m.optimize then q.simplify (.ofRequest m.maxUnroll) = .ok r else r = q := by
  unfold simplified
  cases m.optimize with
  | true =>
    have hsimplify := hq.simplify_eq (.ofRequest m.maxUnroll)
    exact ⟨_, hsimplify, hq.simpler _, hsimplify⟩
  | false => exact ⟨q, rfl, hq, rfl⟩

theorem buildAnswer_buildSources (m : ModuleSettings) (files : List SourceFile) :
    BuildAnswer m files (m.buildSources files) := by
  rcases mapM_cases SourceFile.parse files with
    ⟨programs, hok, hall⟩ | ⟨before, f, after, e, hsplit, hbefore, herror, hmap⟩
  · have hjoins := Program.joins_concat programs
    have hsurface := hjoins.surface (SourceFile.surface_of_parse hall)
    rcases Program.analyze_cases hsurface with ⟨q, hq, hanalyzed⟩ | ⟨e, he⟩
    · obtain ⟨r, hr, hwritable, hsimplified⟩ := m.simplified_of_writable (hanalyzed.writable hsurface)
      obtain ⟨script, hscript⟩ := hwritable.javaScript
      have hrun : m.buildSources files = .ok (r, script) := by
        simp only [buildSources, Program.ofSources, bind, Except.bind, pure, Except.pure, Except.mapError,
          hok, hq, hr, hscript]
      rw [hrun]
      exact .built hall hjoins hq hsimplified hscript
    · have hrun : m.buildSources files = .error (.analysis (.semantic e)) := by
        simp only [buildSources, Program.ofSources, bind, Except.bind, pure, Except.pure, Except.mapError,
          hok, he]
      rw [hrun]
      exact .rejected hall hjoins he
  · have hrun : m.buildSources files = .error (.parse e) := by
      simp only [buildSources, Program.ofSources, bind, Except.bind, Except.mapError, hmap]
    rw [hrun]
    exact .unreadable hsplit hbefore herror (Program.concerns_of_parse herror)

theorem ofSources_singleton (f : SourceFile) : Program.ofSources [f] = f.parse := by
  unfold Program.ofSources
  rw [List.mapM_cons, List.mapM_nil]
  cases hparse : f.parse with
  | error e => rfl
  | ok p => exact congrArg Except.ok (Program.concat_singleton (Program.surface_of_parse hparse))

theorem buildSources_singleton (m : ModuleSettings) (f : SourceFile) (lot : Nat) :
    (m.buildSources [f]).map (fun built => StageResult.text built.2) =
      CompileOptions.compile ⟨f.name, .ofRequest m.maxUnroll, lot⟩ f.text
        (if m.optimize then "js" else "generate") := by
  have hjs : Stage.ofName? "js" = some .script := by decide +kernel
  have hgenerate : Stage.ofName? "generate" = some .plainScript := by decide +kernel
  have hparse : f.parse = Program.parse f.name f.text := rfl
  change (fun built => StageResult.text built.2) <$> m.buildSources [f] = _
  cases hoptimize : m.optimize with
  | true =>
    simp [buildSources, ofSources_singleton, hparse, simplified, hoptimize, CompileOptions.compile, hjs,
      CompileOptions.runStage, CompileOptions.simplified, CompileOptions.analyze, CompileOptions.parse,
      CompileOptions.script]
  | false =>
    have hasis (q : Program) : (Except.ok q).mapError CompileError.fault = pure q := rfl
    simp [buildSources, ofSources_singleton, hparse, simplified, hoptimize, hasis, CompileOptions.compile,
      hgenerate, CompileOptions.runStage, CompileOptions.analyze, CompileOptions.parse,
      CompileOptions.script]

/-- A directory is built as one program of its sources in the order of the bytes of their names, in
whatever order its entries are listed. If a source cannot be read, the answer is the error of the first
such source, which carries its name unless it is about a number. Otherwise the imports and the statements
of all sources, one behind the other, are analyzed, simplified if the settings ask for it, and written as
JavaScript. One source alone gives the text or the error that the compiler gives for it. -/
theorem build_directory (m : ModuleSettings) (entries : List DirEntry)
    (hnames : (entries.map DirEntry.name).Nodup) :
    ∃ files, SourcesInOrder entries files ∧ (∀ files', SourcesInOrder entries files' → files' = files) ∧
      ∀ listing : List DirEntry, listing.Perm entries →
        m.build listing = m.build entries ∧ BuildAnswer m files (m.build listing) ∧
        ∀ f, files = [f] → ∀ lot,
          (m.build listing).map (fun built => StageResult.text built.2) =
            CompileOptions.compile ⟨f.name, .ofRequest m.maxUnroll, lot⟩ f.text
              (if m.optimize then "js" else "generate") := by
  have hsources := SourceFile.sourcesInOrder_ofEntries hnames
  refine ⟨SourceFile.ofEntries entries, hsources, fun files' hfiles' => hfiles'.unique hsources, ?_⟩
  intro listing hperm
  have hlisted := SourceFile.sourcesInOrder_ofEntries ((hperm.map DirEntry.name).nodup_iff.2 hnames)
  have hsame : SourceFile.ofEntries listing = SourceFile.ofEntries entries :=
    hlisted.unique (hsources.of_perm hperm)
  unfold build
  rw [hsame]
  refine ⟨rfl, m.buildAnswer_buildSources _, ?_⟩
  intro f hf lot
  rw [hf]
  exact m.buildSources_singleton f lot

def juiceFile : SourceFile where
  name := "juice.lemon"
  text := "When life gives you lemons try slice juice(slice n) BEGIN JUICING
    you get lemonade and n * 10
  END JUICING"

def zestFile : SourceFile := ⟨"zest.lemon", "pour(juice(2))"⟩

/-- A directory with two sources, a file of another kind and a directory that is named like a source. -/
def grove : List DirEntry :=
  [⟨zestFile.name, some zestFile.text⟩, ⟨"notes.txt", some "not a source"⟩, ⟨"old.lemon", none⟩,
    ⟨juiceFile.name, some juiceFile.text⟩]

theorem sourcesInOrder_grove : SourcesInOrder grove [juiceFile, zestFile] := by
  refine ⟨fun f => ?_, ?_⟩
  · obtain ⟨name, text⟩ := f
    simp only [grove, juiceFile, zestFile, List.mem_cons, List.not_mem_nil, SourceFile.mk.injEq,
      DirEntry.mk.injEq, Option.some.injEq, reduceCtorEq, and_false, or_false, false_or]
    constructor
    · rintro (⟨rfl, rfl⟩ | ⟨rfl, rfl⟩)
      · exact ⟨.inr (.inr ⟨rfl, rfl⟩), by decide⟩
      · exact ⟨.inl ⟨rfl, rfl⟩, by decide⟩
    · rintro ⟨h | ⟨rfl, -⟩ | h, hname⟩
      · exact .inr h
      · exact absurd hname (by decide)
      · exact .inl h
  · simp only [List.pairwise_cons, List.mem_singleton, forall_eq, List.not_mem_nil, false_implies,
      implies_true, List.Pairwise.nil, and_true]
    exact (lt_iff_bytes_lt _ _).1 (by decide)

theorem build_directory_grove :
    (grove.map DirEntry.name).Nodup ∧ SourcesInOrder grove [juiceFile, zestFile] ∧
    BuildAnswer (.new "grove") [juiceFile, zestFile] ((ModuleSettings.new "grove").build grove.reverse) ∧
    ((ModuleSettings.new "grove").buildSources [juiceFile, zestFile]).isOk = true := by
  have hnames : (grove.map DirEntry.name).Nodup := by decide
  obtain ⟨files, -, hunique, hbuild⟩ := build_directory (.new "grove") grove hnames
  obtain rfl := hunique _ sourcesInOrder_grove
  exact ⟨hnames, sourcesInOrder_grove, (hbuild grove.reverse grove.reverse_perm).2.1, by decide +kernel⟩

end ModuleSettings

end LemonScript
