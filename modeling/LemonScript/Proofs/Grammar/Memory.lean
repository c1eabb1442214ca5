import LemonScript.Proofs.Grammar.Parsed
import LemonScript.Proofs.Grammar.Replay
/-!
# Remembering changes nothing

A parse remembers what the rule for variables found at each offset. Rule by rule, a run that
remembers is mirrored by a run that looks afresh every time. Both kinds of runs are compared across all
levels of the rules, because what is remembered at one level is used at others. So a source gives the
same program, the same syntax error or the same number out of range, whether or not anything is
remembered.
-/

namespace LemonScript

open Rule

namespace Grammar

variable {s : ParseState} {source : List Char}

section Rules

variable {source : List Char} {limit : Nat} {g : Rules}

/-! ### Variables -/

def keep (offset : Nat) : Outcome Node → Outcome Node
  | .matched node s => .matched node (s.remember offset ⟨some node, s.cursor⟩)
  | .failed s => .failed (s.remember offset ⟨none, s.cursor⟩)
  | .aborted reason => .aborted reason

theorem reference_of_some {r : Remembered} (h : s.remembered? s.cursor.offset = some r) :
    reference g s = r.outcome s := by
  unfold reference
  dsimp only
  rw [h]
  rcases r with ⟨_ | node, stop⟩ <;> rfl

theorem reference_of_none (h : s.remembered? s.cursor.offset = none) :
    reference g s = keep s.cursor.offset (rewinding (accessors g) s) := by
  unfold reference Rule.rewinding Rule.onFailure
  dsimp only
  rw [h]
  cases accessors g s <;> rfl

theorem keep_replay (offset : Nat) (notes : List Note) (u : Scanner) (o : Outcome Node) :
    keep offset (o.replay notes u) = o.replay notes u := by
  cases o <;> rfl

theorem echoes_reference {notes : List Note} {u : Scanner} {o : Outcome Node}
    (h : Outcome.Echoes notes u o (rewinding (accessors g) ⟨u, none⟩)) :
    Outcome.Echoes notes u o (reference g ⟨u, none⟩) := by
  rw [reference_of_none rfl]
  rcases h with h | h | h
  · exact .inl h
  · rw [h]
    exact .inr (.inl rfl)
  · rw [h, keep_replay]
    exact .inr (.inr rfl)

/-- What was found just now is found by every later look, at any level, and the notes of such a look
are known already. -/
theorem right_of_found (hg : ∀ levels, g.Alike (mirroring source limit) (rules limit levels))
    {s' : ParseState} (hs : s.Faithful source limit) (hs' : s'.cursor.In source) {r : Remembered}
    (hstop : r.stop = s'.cursor) (hrun : rewinding (accessors g) s = r.outcome s') :
    r.Right source limit s'.scanner s.cursor.offset := by
  refine ⟨hstop ▸ hs', ?_⟩
  intro levels
  obtain ⟨notes, hkeeps, hecho⟩ := (alike_accessors (hg levels)).rewinding s hs
  rw [hrun] at hkeeps hecho
  have hmoves : s.Moves notes (s'.reset r.stop) := by
    rcases r with ⟨_ | node, stop⟩
    · exact hkeeps.2
    · exact hkeeps.2
  have hscanner : s'.scanner = (s.scanner.noteAll notes).reset s'.cursor := by
    rw [hstop] at hmoves
    exact hmoves
  refine ⟨notes, ?_, ?_⟩
  · intro n hn
    rw [hscanner]
    exact s.scanner.knows_noteAll hn
  · intro u hu
    have hstart : u.cursor = s.cursor := hu.trans hs.scanner.cursor_in.eq_ofOffset.symm
    exact (echoes_reference (hecho u hstart)).congr (r.replay_outcome s' ⟨u, none⟩ notes u)

/-- The memory is used at every level, so the rules around have to mirror those of all levels. -/
theorem mirrors_reference (hg : ∀ levels, g.Alike (mirroring source limit) (rules limit levels))
    (levels : Nat) : Mirrors source limit (reference g) (reference (rules limit levels)) := by
  intro s hs
  cases hfound : s.remembered? s.cursor.offset with
  | some r =>
    have hright := hs.memory _ _ hfound
    obtain ⟨notes, hknown, hecho⟩ := hright.found levels
    have hmoves : s.Moves notes (s.reset r.stop) := by
      unfold ParseState.Moves
      rw [Scanner.noteAll_of_knows hs.ordered hknown]
      rfl
    rw [reference_of_some hfound]
    refine ⟨notes, ?_, ?_⟩
    · rcases r with ⟨_ | node, stop⟩
      · exact ⟨hs.reset hright.stop_in, hmoves⟩
      · exact ⟨hs.reset hright.stop_in, hmoves⟩
    · intro u hu
      have hstart : u.cursor = Cursor.ofOffset source s.cursor.offset :=
        hu.trans hs.scanner.cursor_in.eq_ofOffset
      exact (hecho u hstart).congr (r.replay_outcome ⟨u, none⟩ s notes u)
  | none =>
    obtain ⟨notes, hkeeps, hecho⟩ := (alike_accessors (hg levels)).rewinding s hs
    rw [reference_of_none hfound]
    cases hrun : rewinding (accessors g) s with
    | matched node s' =>
      rw [hrun] at hkeeps hecho
      have hright := right_of_found hg hs hkeeps.1.scanner.cursor_in (r := ⟨some node, s'.cursor⟩) rfl hrun
      refine ⟨notes, ⟨hkeeps.1.remember hright, hkeeps.2⟩, ?_⟩
      intro u hu
      exact (echoes_reference (hecho u hu)).congr rfl
    | failed s' =>
      rw [hrun] at hkeeps hecho
      have hright := right_of_found hg hs hkeeps.1.scanner.cursor_in (r := ⟨none, s'.cursor⟩) rfl hrun
      refine ⟨notes, ⟨hkeeps.1.remember hright, hkeeps.2⟩, ?_⟩
      intro u hu
      exact (echoes_reference (hecho u hu)).congr rfl
    | aborted =>
      rw [hrun] at hecho
      exact ⟨notes, trivial, fun u hu => echoes_reference (hecho u hu)⟩

end Rules

/-! ### Programs -/

theorem sound_afresh {u : Scanner} (h : u.Reads source) : ParseState.Sound source ⟨u, none⟩ := by
  refine ⟨h, ?_⟩
  intro offset r hr
  cases hr

theorem program_ne_tooDeep (hs : s.Sound source) {size : Nat} (hsize : source.length < size) :
    program (rules size size) s ≠ .aborted .tooDeep := by
  have hlength : s.cursor.rest.length < size := by
    have h := hs.cursor_in.length
    omega
  have hends := reads_program (sound_rules le_rfl) 0 s hs.keeps (Nat.zero_le _) hlength
  intro htooDeep
  rw [htooDeep] at hends
  exact hends rfl

/-- Whatever is remembered when a parse begins, it ends as a parse that looks afresh. -/
theorem parseFrom_eq_afresh (hs : s.Faithful source (source.length + 2)) (hsound : s.Sound source) :
    parseFrom s = parseFrom ⟨s.scanner, none⟩ := by
  have hsource : s.scanner.source = source := hs.scanner.source_eq
  obtain ⟨notes, hkeeps, hecho⟩ :=
    alike_program (alike_rules mirrors_reference (source.length + 2) (source.length + 2)) s hs
  unfold parseFrom
  dsimp only
  rw [hsource]
  rcases hecho s.scanner rfl with htooDeep | htooDeep | hreplay
  · exact absurd htooDeep (program_ne_tooDeep hsound (by omega))
  · exact absurd htooDeep (program_ne_tooDeep (sound_afresh hs.scanner) (by omega))
  · rw [hreplay]
    cases hrun : program (rules (source.length + 2) (source.length + 2)) s with
    | matched => rfl
    | failed s' =>
      rw [hrun] at hkeeps
      have hscanner : s'.scanner = _ := hkeeps.2
      simp only [Outcome.replay, ← hscanner]
    | aborted => rfl

/-- A syntax error is reported by the first scanner, which took notes and went to another place. -/
theorem error_of_parseFrom (hs : s.Faithful source (source.length + 2)) {e : SyntaxError}
    (h : parseFrom s = .error (.syntactic e)) :
    ∃ notes c, e = ((s.scanner.noteAll notes).reset c).error := by
  obtain ⟨notes, hkeeps, -⟩ :=
    alike_program (alike_rules mirrors_reference (source.length + 2) (source.length + 2)) s hs
  unfold parseFrom at h
  dsimp only at h
  rw [hs.scanner.source_eq] at h
  cases hrun : program (rules (source.length + 2) (source.length + 2)) s with
  | matched =>
    rw [hrun] at h
    cases h
  | failed s' =>
    rw [hrun] at h hkeeps
    cases h
    have hscanner : s'.scanner = (s.scanner.noteAll notes).reset s'.cursor := hkeeps.2
    exact ⟨notes, s'.cursor, congrArg Scanner.error hscanner⟩
  | aborted =>
    rw [hrun] at h
    cases h

end Grammar

section Start

variable (filename source : String)

theorem Scanner.reads_ofSource : (Scanner.ofSource filename source).Reads source.toList :=
  ⟨rfl, Nat.zero_le _, rfl⟩

theorem ParseState.sound_ofSource :
    ParseState.Sound source.toList ⟨Scanner.ofSource filename source, some {}⟩ := by
  refine ⟨Scanner.reads_ofSource filename source, ?_⟩
  intro offset r hr
  simp [ParseState.remembered?] at hr

theorem ParseState.faithful_ofSource (limit : Nat) :
    ParseState.Faithful source.toList limit ⟨Scanner.ofSource filename source, some {}⟩ := by
  refine ⟨Scanner.reads_ofSource filename source, List.Pairwise.nil, ?_⟩
  intro offset r hr
  simp [ParseState.remembered?] at hr

/-- A source gives the same program, the same syntax error or the same number out of range as it does
when every variable is read afresh. -/
theorem Program.parse_eq_afresh : Program.parse filename source =
    Grammar.parseFrom ⟨Scanner.ofSource filename source, none⟩ :=
  Grammar.parseFrom_eq_afresh (ParseState.faithful_ofSource filename source _)
    (ParseState.sound_ofSource filename source)

end Start

end LemonScript
