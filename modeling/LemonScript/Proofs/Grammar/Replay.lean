import LemonScript.Proofs.Grammar.Likeness
/-!
# Runs with and without a memory

A parse that remembers what was found at an offset does not look there again, and so it does not
take the notes of that second look. This module compares a rule that is run with a memory with one
that is run without: from the same place, the second one ends as the first one did, and it adds the
same notes to whatever its scanner has noted before. What is remembered is right if every look
without a memory finds the same, at whatever level of the rules, and all that it would note is known.
This is a likeness of rules. A run that is nested too deeply is left out.
-/

namespace LemonScript

open Rule

/-- The outcome as a run without a memory has it, whose scanner `u` takes the notes. -/
def Outcome.replay {α : Type} (notes : List Note) (u : Scanner) : Outcome α → Outcome α
  | .matched a s => .matched a ⟨(u.noteAll notes).reset s.cursor, none⟩
  | .failed s => .failed ⟨(u.noteAll notes).reset s.cursor, none⟩
  | .aborted reason => .aborted reason

/-- The second outcome is a replay of the first one, unless one of them was nested too deeply. -/
def Outcome.Echoes {α : Type} (notes : List Note) (u : Scanner) (o o' : Outcome α) : Prop :=
  o = .aborted .tooDeep ∨ o' = .aborted .tooDeep ∨ o' = o.replay notes u

variable {notes notes' : List Note} {u : Scanner} {c : Cursor} {o : Outcome α}
variable {offset : Nat} {r : Remembered}

theorem Outcome.Echoes.trans {α : Type} {o o' : Outcome α}
    (h : Echoes notes' ((u.noteAll notes).reset c) o o') : Echoes (notes ++ notes') u o o' := by
  refine h.imp_right (Or.imp_right ?_)
  rintro rfl
  cases o with
  | aborted => rfl
  | _ =>
    simp only [replay, Scanner.noteAll_reset, Scanner.noteAll_append]
    rfl

theorem Outcome.Echoes.congr {α : Type} {o o' p : Outcome α} (h : Echoes notes u o o')
    (hreplay : o.replay notes u = p.replay notes u) : Echoes notes u p o' := by
  rcases h with rfl | rfl | rfl
  · cases p with
    | aborted => exact .inl hreplay.symm
    | _ => cases hreplay
  · exact .inr (.inl rfl)
  · exact .inr (.inr hreplay)

/-- How the rule for variables ends where this is remembered. -/
def Remembered.outcome (r : Remembered) (s : ParseState) : Outcome Node :=
  match r.node? with
  | some node => .matched node (s.reset r.stop)
  | none => .failed (s.reset r.stop)

theorem Remembered.replay_outcome (r : Remembered) (s s' : ParseState) (notes : List Note)
    (u : Scanner) : (r.outcome s).replay notes u = (r.outcome s').replay notes u := by
  rcases r with ⟨_ | node, stop⟩
  · rfl
  · rfl

/-- What is remembered about an offset is found there without a memory too, and a scanner that knows
as much as `s` has nothing to note about it. -/
structure Remembered.Right (source : List Char) (limit : Nat) (s : Scanner) (offset : Nat)
    (r : Remembered) : Prop where
  stop_in : r.stop.In source
  found : ∀ levels, ∃ notes, (∀ n ∈ notes, s.Knows n) ∧
    ∀ u : Scanner, u.cursor = Cursor.ofOffset source offset →
      Outcome.Echoes notes u (r.outcome ⟨u, none⟩)
        (Grammar.reference (Grammar.rules limit levels) ⟨u, none⟩)

theorem Remembered.Right.noteAll {source : List Char} {limit : Nat} {t : Scanner}
    (h : r.Right source limit t offset) (notes : List Note) (c : Cursor) :
    r.Right source limit ((t.noteAll notes).reset c) offset := by
  refine ⟨h.stop_in, ?_⟩
  intro levels
  obtain ⟨notes', hknown, hfound⟩ := h.found levels
  exact ⟨notes', fun n hn => (hknown n hn).noteAll notes, hfound⟩

/-- A state in the middle of a parse of a source, all of whose memories are right. -/
structure ParseState.Faithful (source : List Char) (limit : Nat) (s : ParseState) : Prop where
  scanner : s.scanner.Reads source
  ordered : s.scanner.Ordered
  memory : ∀ offset r, s.remembered? offset = some r → r.Right source limit s.scanner offset

namespace ParseState

variable {source : List Char} {limit : Nat} {s s' : ParseState}

/-- The second state comes from the first one by taking notes and going to a place. -/
def Moves (notes : List Note) (s s' : ParseState) : Prop :=
  s'.scanner = (s.scanner.noteAll notes).reset s'.cursor

theorem Moves.trans {s'' : ParseState} (h : s.Moves notes s') (h' : s'.Moves notes' s'') :
    s.Moves (notes ++ notes') s'' := by
  unfold Moves at *
  rw [h', h, Scanner.noteAll_reset, Scanner.noteAll_append]
  rfl

/-- Taking notes and going to a place of the source keeps the memories right. -/
theorem Faithful.withScanner (h : s.Faithful source limit) (notes : List Note) (hc : c.In source) :
    ParseState.Faithful source limit { s with scanner := (s.scanner.noteAll notes).reset c } := by
  refine ⟨⟨?_, hc⟩, h.ordered.noteAll notes, ?_⟩
  · exact (s.scanner.source_noteAll notes).trans h.scanner.source_eq
  · intro offset r hr
    exact (h.memory offset r hr).noteAll notes c

theorem Faithful.reset (h : s.Faithful source limit) (hc : c.In source) :
    (s.reset c).Faithful source limit :=
  h.withScanner [] hc

theorem Faithful.remember (h : s.Faithful source limit) (hr : r.Right source limit s.scanner offset) :
    (s.remember offset r).Faithful source limit := by
  refine ⟨h.scanner, h.ordered, ?_⟩
  intro offset' r' hr'
  rcases remembered?_remember hr' with ⟨rfl, rfl⟩ | hr'
  · exact hr
  · exact h.memory offset' r' hr'

end ParseState

namespace Rule

variable {α β : Type} {source : List Char} {limit : Nat}

/-- The state behind a run is faithful, and the run took these notes. -/
def Keeps (source : List Char) (limit : Nat) (notes : List Note) (s : ParseState) : Outcome α → Prop
  | .matched _ s' | .failed s' => s'.Faithful source limit ∧ s.Moves notes s'
  | .aborted _ => True

/-- Run in a faithful state, the first rule keeps it faithful, and the second rule, run without a
memory at the same place, ends in the same way and takes the same notes. -/
def Mirrors (source : List Char) (limit : Nat) (r r' : Rule α) : Prop :=
  ∀ s : ParseState, s.Faithful source limit → ∃ notes, Keeps source limit notes s (r s) ∧
    ∀ u : Scanner, u.cursor = s.cursor → Outcome.Echoes notes u (r s) (r' ⟨u, none⟩)

/-! ### Single steps -/

variable {r : Rule α}
variable {s : ParseState} {r' : Rule α}

theorem echoes_matched (hu : u.cursor = s.cursor) (a : α) :
    Outcome.Echoes [] u (.matched a s) (.matched a ⟨u, none⟩) := by
  refine .inr (.inr ?_)
  simp only [Outcome.replay, Scanner.noteAll, ← hu]
  rfl

theorem mirrors_pure (a : α) : Mirrors source limit (pure a) (pure a) := by
  intro s hs
  exact ⟨[], ⟨hs, rfl⟩, fun u hu => echoes_matched hu a⟩

theorem mirrors_failTo (hc : c.In source) :
    Mirrors source limit (failTo c : Rule α) (failTo c) := by
  intro s hs
  exact ⟨[], ⟨hs.reset hc, rfl⟩, fun u hu => .inr (.inr rfl)⟩

theorem mirrors_fail : Mirrors source limit (fail : Rule α) fail := by
  intro s hs
  refine ⟨[], ⟨hs, rfl⟩, ?_⟩
  intro u hu
  refine .inr (.inr ?_)
  simp only [Rule.fail, Outcome.replay, Scanner.noteAll, ← hu]
  rfl

theorem mirrors_abort (reason : Abort) :
    Mirrors source limit (abort reason : Rule α) (abort reason) := by
  intro s hs
  exact ⟨[], trivial, fun u hu => .inr (.inr rfl)⟩

/-- A rule that is nested too deeply is compared with nothing. -/
theorem mirrors_tooDeep_left (r : Rule α) : Mirrors source limit (abort .tooDeep) r := by
  intro s hs
  exact ⟨[], trivial, fun u hu => .inl rfl⟩

theorem Mirrors.tooDeep_right (h : Mirrors source limit r r') :
    Mirrors source limit r (abort .tooDeep) := by
  intro s hs
  obtain ⟨notes, hkeeps, -⟩ := h s hs
  exact ⟨notes, hkeeps, fun u hu => .inr (.inl rfl)⟩

/-! ### One rule after another -/

theorem Keeps.trans {s' : ParseState} (h : s.Moves notes s') (h' : Keeps source limit notes' s' o) :
    Keeps source limit (notes ++ notes') s o := by
  cases o with
  | matched | failed => exact ⟨h'.1, h.trans h'.2⟩
  | aborted => trivial

theorem Mirrors.after {hit hit' : α → Rule β} {miss miss' : Rule β} (hr : Mirrors source limit r r')
    (hhit : ∀ a, Mirrors source limit (hit a) (hit' a)) (hmiss : Mirrors source limit miss miss') :
    Mirrors source limit (after r hit miss) (after r' hit' miss') := by
  intro s hs
  obtain ⟨notes, hkeeps, hecho⟩ := hr s hs
  unfold Rule.after
  cases hrun : r s with
  | matched a s₁ =>
    rw [hrun] at hkeeps hecho
    obtain ⟨notes', hkeeps', hecho'⟩ := hhit a s₁ hkeeps.1
    refine ⟨notes ++ notes', hkeeps'.trans hkeeps.2, ?_⟩
    intro u hu
    rcases hecho u hu with h | h | h
    · cases h
    · rw [h]
      exact .inr (.inl rfl)
    · rw [h]
      exact (hecho' ((u.noteAll notes).reset s₁.cursor) rfl).trans
  | failed s₁ =>
    rw [hrun] at hkeeps hecho
    obtain ⟨notes', hkeeps', hecho'⟩ := hmiss s₁ hkeeps.1
    refine ⟨notes ++ notes', hkeeps'.trans hkeeps.2, ?_⟩
    intro u hu
    rcases hecho u hu with h | h | h
    · cases h
    · rw [h]
      exact .inr (.inl rfl)
    · rw [h]
      exact (hecho' ((u.noteAll notes).reset s₁.cursor) rfl).trans
  | aborted =>
    rw [hrun] at hecho
    refine ⟨[], trivial, ?_⟩
    intro u hu
    rcases hecho u hu with h | h | h
    · cases h
      exact .inl rfl
    · rw [h]
      exact .inr (.inl rfl)
    · rw [h]
      exact .inr (.inr rfl)

theorem mirrors_mark_bind {f f' : Cursor → Rule α}
    (hf : ∀ c : Cursor, c.In source → Mirrors source limit (f c) (f' c)) :
    Mirrors source limit (mark >>= f) (mark >>= f') := by
  intro s hs
  obtain ⟨notes, hkeeps, hecho⟩ := hf s.cursor hs.scanner.cursor_in s hs
  refine ⟨notes, hkeeps, ?_⟩
  intro u hu
  change Outcome.Echoes notes u (f s.cursor s) (f' u.cursor ⟨u, none⟩)
  rw [hu]
  exact hecho u hu

/-! ### Tokens -/

/-- A question whose answer depends only on the place is answered alike with and without a memory. -/
theorem mirrors_of_local {f : Scanner → β × Scanner} (hf : Scanner.Local f)
    (hin : ∀ s : Scanner, s.Reads source → (f s).2.Reads source) (hit : β → Option α)
    (hr : ∀ s, r s = match hit (f s.scanner).1 with
      | some a => .matched a { s with scanner := (f s.scanner).2 }
      | none => .failed { s with scanner := (f s.scanner).2 }) : Mirrors source limit r r := by
  intro s hs
  obtain ⟨b, stop, notes, hanswer⟩ := hf s.cursor
  have hstop : stop.In source := by
    have hreads := hin s.scanner hs.scanner
    rw [hanswer s.scanner rfl] at hreads
    exact hreads.cursor_in
  have hfaithful := hs.withScanner notes hstop
  refine ⟨notes, ?_, ?_⟩
  · rw [hr, hanswer s.scanner rfl]
    cases hit b with
    | some | none => exact ⟨hfaithful, rfl⟩
  · intro u hu
    refine .inr (.inr ?_)
    rw [hr, hr, hanswer s.scanner rfl, hanswer u hu]
    cases hit b with
    | some | none => rfl

/-- The likeness of a run with a memory and one without. -/
def mirroring (source : List Char) (limit : Nat) : Likeness where
  Alike := Mirrors source limit
  Place c c' := c = c' ∧ c.In source
  alike_pure := mirrors_pure
  alike_fail := mirrors_fail
  alike_abort := mirrors_abort
  tooDeep_left := mirrors_tooDeep_left
  tooDeep_right := Mirrors.tooDeep_right
  alike_after := Mirrors.after
  alike_mark hf := mirrors_mark_bind fun c hc => hf c c ⟨rfl, hc⟩
  alike_failTo := by
    rintro α c _ ⟨rfl, hc⟩
    exact mirrors_failTo hc
  alike_test {f} hf := by
    refine mirrors_of_local hf.question.isLocal (fun s => hf.question.reads) (fun b => if b then some () else none) ?_
    intro s
    unfold ofTest
    rcases f s.scanner with ⟨_ | _, scanner⟩ <;> rfl
  alike_scan {α β γ view f h h'} hf hh := by
    rw [bind_eq_after, bind_eq_after]
    refine Mirrors.after ?_ (fun a => hh a a rfl) mirrors_fail
    refine mirrors_of_local hf.question.isLocal (fun s => hf.question.reads) id ?_
    intro s
    unfold ofScan
    rcases f s.scanner with ⟨_ | a, scanner⟩ <;> rfl

end Rule

end LemonScript
