import LemonScript.Proofs.Grammar.Ending
/-!
# Where a rejected source fails

All that a parse does with its scanner is to ask it for tokens and to send it back to places of the
source. So the scanner of a parse has served some requests, and the error of a rejected source shows the
furthest failure among them. The question for the end of the source is asked last, behind all statements
that were read at the top level; it fails there, and the furthest failure cannot be before it.
-/

namespace LemonScript

open Rule

/-! ### Requests of a parse -/

/-- The scanner of the state has served some requests since the start, and all that is remembered are
places of the source. -/
structure ParseState.ReachedFrom (start : Scanner) (s : ParseState) : Prop where
  scanner : s.scanner.Reads start.source
  requests : ∃ rs : List Scanner.Request,
    (∀ r ∈ rs, r.StaysIn start.source) ∧ s.scanner = start.runAll rs
  memory : ∀ offset r, s.remembered? offset = some r → r.stop.In start.source

namespace ParseState.ReachedFrom

variable {start : Scanner} {s : ParseState}

theorem run (h : s.ReachedFrom start) {r : Scanner.Request} (hr : r.StaysIn start.source) :
    ParseState.ReachedFrom start { s with scanner := r.run s.scanner } := by
  refine ⟨h.scanner.run hr, ?_, h.memory⟩
  obtain ⟨rs, hrs, hscanner⟩ := h.requests
  refine ⟨rs ++ [r], List.forall_mem_append.mpr ⟨hrs, List.forall_mem_singleton.mpr hr⟩, ?_⟩
  rw [Scanner.runAll_append, ← hscanner]
  rfl

theorem asked {β γ : Type} (h : s.ReachedFrom start) {view : β → γ} {f : Scanner → β × Scanner}
    (hf : Scanner.Asked view f) :
    ParseState.ReachedFrom start { s with scanner := (f s.scanner).2 } := by
  obtain ⟨r, hr, hserved⟩ := hf.served
  rw [hserved]
  exact h.run (hr start.source)

theorem reset (h : s.ReachedFrom start) {c : Cursor} (hc : c.In start.source) :
    (s.reset c).ReachedFrom start := by
  have hgoTo : s.scanner.reset c = s.scanner.goTo c.offset := by
    rw [Scanner.goTo, h.scanner.source_eq, ← hc.eq_ofOffset]
  have hreached : ParseState.ReachedFrom start { s with scanner := s.scanner.goTo c.offset } :=
    h.run (r := .goTo c.offset) hc.1
  rwa [← hgoTo] at hreached

theorem remember (h : s.ReachedFrom start) {offset : Nat} {r : Remembered}
    (hr : r.stop.In start.source) : (s.remember offset r).ReachedFrom start := by
  refine ⟨h.scanner, h.requests, fun offset' r' hr' => ?_⟩
  rcases remembered?_remember hr' with ⟨rfl, rfl⟩ | hr'
  · exact hr
  · exact h.memory offset' r' hr'

end ParseState.ReachedFrom

def Outcome.Reached {α : Type} (start : Scanner) : Outcome α → Prop
  | .matched _ s => s.ReachedFrom start
  | .failed s => s.ReachedFrom start
  | .aborted _ => True

/-- The rule does nothing with the scanner but send it requests. -/
def Rule.OnlyAsks {α : Type} (start : Scanner) (r : Rule α) : Prop :=
  ∀ s, s.ReachedFrom start → (r s).Reached start

namespace Rule

variable {α β : Type} {start : Scanner}

theorem OnlyAsks.after {r : Rule α} {hit : α → Rule β} {miss : Rule β} (hr : r.OnlyAsks start)
    (hhit : ∀ a, (hit a).OnlyAsks start) (hmiss : miss.OnlyAsks start) :
    (after r hit miss).OnlyAsks start := by
  intro s hs
  have hfirst := hr s hs
  unfold Rule.after
  cases hrun : r s with
  | matched a s' =>
    rw [hrun] at hfirst
    exact hhit a s' hfirst
  | failed s' =>
    rw [hrun] at hfirst
    exact hmiss s' hfirst
  | aborted => trivial

theorem onlyAsks_ofTest {f : Scanner → Bool × Scanner} (hf : Scanner.Asked id f) :
    (ofTest f).OnlyAsks start := by
  intro s hs
  have hreached := hs.asked hf
  unfold ofTest
  rcases hanswer : f s.scanner with ⟨_ | _, scanner⟩
  all_goals
    rw [hanswer] at hreached
    exact hreached

theorem onlyAsks_ofScan {γ : Type} {view : Option α → γ} {f : Scanner → Option α × Scanner}
    (hf : Scanner.Asked view f) : (ofScan f).OnlyAsks start := by
  intro s hs
  have hreached := hs.asked hf
  unfold ofScan
  rcases hanswer : f s.scanner with ⟨_ | _, scanner⟩
  all_goals
    rw [hanswer] at hreached
    exact hreached

/-- A likeness that looks at the first rule only. -/
def asking (start : Scanner) : Likeness where
  Alike r _ := r.OnlyAsks start
  Place c _ := c.In start.source
  alike_pure _ := fun _ hs => hs
  alike_fail := fun _ hs => hs
  alike_abort _ := fun _ _ => trivial
  tooDeep_left _ := fun _ _ => trivial
  tooDeep_right hr := hr
  alike_after := OnlyAsks.after
  alike_mark hf := fun s hs => hf s.cursor s.cursor hs.scanner.cursor_in s hs
  alike_failTo hc := fun _ hs => hs.reset hc
  alike_test := onlyAsks_ofTest
  alike_scan hf hh := by
    rw [bind_eq_after]
    exact (onlyAsks_ofScan hf).after (fun a => hh a a rfl) fun _ hs => hs

end Rule

namespace Grammar

variable {start : Scanner}

theorem onlyAsks_reference {g g' : Rules} (hg : g.Alike (asking start) g') :
    (reference g).OnlyAsks start := by
  intro s hs
  cases hfound : s.remembered? s.cursor.offset with
  | some r =>
    have hreset := hs.reset (hs.memory _ _ hfound)
    rw [reference_of_some hfound]
    rcases r with ⟨_ | node, stop⟩
    · exact hreset
    · exact hreset
  | none =>
    have hlooked : (rewinding (accessors g) s).Reached start := (alike_accessors hg).rewinding s hs
    rw [reference_of_none hfound]
    cases hrun : rewinding (accessors g) s with
    | matched =>
      rw [hrun] at hlooked
      exact ParseState.ReachedFrom.remember hlooked hlooked.scanner.cursor_in
    | failed s' =>
      rw [hrun] at hlooked
      exact ParseState.ReachedFrom.remember hlooked hlooked.scanner.cursor_in
    | aborted => trivial

theorem onlyAsks_program (start : Scanner) (size : Nat) :
    (program (rules size size)).OnlyAsks start := by
  have hrules : (rules size size).Alike (asking start) (rules size size) :=
    alike_rules (fun hg levels => onlyAsks_reference (hg levels)) size size
  exact alike_program hrules

/-! ### The top level -/

/-- The states of a parse at the top level: behind the imports, and behind each statement there. -/
inductive TopLevel (g : Rules) (start : ParseState) : ParseState → Prop
  | imports {imports : List Import} {s : ParseState}
      (h : many importing g.limit start = .matched imports s) : TopLevel g start s
  | statement {node : Node} {s s' : ParseState} (h : TopLevel g start s)
      (hrun : g.statement s = .matched node s') : TopLevel g start s'

theorem many_ne_failed {α : Type} (r : Rule α) (n : Nat) (s s' : ParseState) :
    many r n s ≠ .failed s' := by
  induction n generalizing s with
  | zero =>
    intro h
    cases h
  | succ n ih =>
    intro h
    unfold Rule.many at h
    split at h
    · split at h
      · cases h
      · next hrest => exact ih _ (hrest.trans h)
      · cases h
    · cases h
    · cases h

theorem exists_of_many_matched {α : Type} {r : Rule α} {n : Nat} {a : α} {as : List α}
    {s s' stop : ParseState} (hrun : r s = .matched a s') (h : many r n s = .matched as stop) :
    ∃ m as', n = m + 1 ∧ many r m s' = .matched as' stop := by
  cases n with
  | zero => cases h
  | succ m =>
    unfold Rule.many at h
    rw [hrun] at h
    dsimp only at h
    cases hmore : many r m s' with
    | matched as' s'' =>
      rw [hmore] at h
      cases h
      exact ⟨m, as', rfl, hmore⟩
    | failed s'' => exact absurd hmore (many_ne_failed r m s' s'')
    | aborted =>
      rw [hmore] at h
      cases h

theorem bind_eq_failed {α β : Type} {r : Rule α} {f : α → Rule β} {s stop : ParseState}
    (h : (r >>= f) s = .failed stop) :
    r s = .failed stop ∨ ∃ a s', r s = .matched a s' ∧ f a s' = .failed stop := by
  change Rule.bind r f s = _ at h
  unfold Rule.bind at h
  cases hrun : r s with
  | matched a s' =>
    rw [hrun] at h
    exact .inr ⟨a, s', rfl, h⟩
  | failed s' =>
    rw [hrun] at h
    cases h
    exact .inl rfl
  | aborted =>
    rw [hrun] at h
    cases h

theorem eq_of_program_failed {g : Rules} {start s : ParseState} (h : program g start = .failed s) :
    ∃ imports s₁ body s₂, many importing g.limit start = .matched imports s₁ ∧
      many g.statement g.limit s₁ = .matched body s₂ ∧ s₂.scanner.atEnd.1 = false ∧
      s = { s₂ with scanner := s₂.scanner.atEnd.2 } := by
  rcases bind_eq_failed h with himports | ⟨imports, s₁, himports, h⟩
  · exact absurd himports (many_ne_failed _ _ _ _)
  rcases bind_eq_failed h with hbody | ⟨body, s₂, hbody, h⟩
  · exact absurd hbody (many_ne_failed _ _ _ _)
  refine ⟨imports, s₁, body, s₂, himports, hbody, ?_⟩
  rcases bind_eq_failed h with hasked | ⟨_, s₃, -, h⟩
  · unfold ofTest at hasked
    rcases hatEnd : s₂.scanner.atEnd with ⟨_ | _, scanner⟩
    · rw [hatEnd] at hasked
      cases hasked
      exact ⟨rfl, rfl⟩
    · rw [hatEnd] at hasked
      cases hasked
  · cases h

section Loop

variable {source : List Char} {size : Nat} (hsize : source.length < size) {start s s₁ s₂ : ParseState}
  (hstart : start.Keeps (fun _ => True) source) {imports : List Import} {body : List Node}
  (himports : many importing size start = .matched imports s₁)
  (hbody : many (rules size size).statement size s₁ = .matched body s₂)

include hsize hstart himports hbody

/-- The states at the top level are those of one loop, which goes on behind them. Each statement takes
one of the repetitions and at least one character. -/
theorem TopLevel.exists_many (h : TopLevel (rules size size) start s) :
    ∃ k body, s.Keeps (fun _ => True) source ∧ s.cursor.rest.length < k ∧ k ≤ size ∧
      many (rules size size).statement k s = .matched body s₂ := by
  have hstatement : Reads (fun _ => True) source size true _ (rules size size).statement :=
    (sound_rules le_rfl).statement
  have hlength : ∀ {s : ParseState}, s.Keeps (fun _ => True) source → s.cursor.rest.length < size := by
    intro s hs
    have := hs.cursor_in.length
    omega
  induction h with
  | imports h =>
    rw [limit_rules, himports] at h
    cases h
    have hends := reads_importing.many (le_refl size) 0 start hstart (Nat.zero_le _) (hlength hstart)
    rw [himports] at hends
    exact ⟨size, body, hends.1, hlength hends.1, le_rfl, hbody⟩
  | statement h hrun ih =>
    obtain ⟨k, body, hs, hrest, hk, hmany⟩ := ih
    have hends := hstatement 0 _ hs (Nat.zero_le _) (hlength hs)
    rw [hrun] at hends
    obtain ⟨hs', hle, -⟩ := hends
    obtain ⟨m, body', rfl, hmore⟩ := exists_of_many_matched hrun hmany
    exact ⟨m, body', hs', rest_lt hs hs' hrest hle, by omega, hmore⟩

theorem TopLevel.offset_le (h : TopLevel (rules size size) start s) :
    s.cursor.offset ≤ s₂.cursor.offset := by
  obtain ⟨k, body, hs, hrest, hk, hmany⟩ := h.exists_many hsize hstart himports hbody
  have hstatement : Reads (fun _ => True) source k true _ (rules size size).statement :=
    (sound_rules le_rfl).statement.mono hk
  have hends := hstatement.many le_rfl 0 s hs (Nat.zero_le _) hrest
  rw [hmany] at hends
  exact hends.2.1

end Loop

end Grammar

open Grammar Scanner

theorem length_lt_limit (source : String) : source.toList.length < source.length + 2 := by
  rw [String.length_toList]
  omega

theorem failed_of_parse {filename source : String} {e : SyntaxError}
    (h : Program.parse filename source = .error (.syntactic e)) :
    ∃ s, program (rules (source.length + 2) (source.length + 2)) (.start filename source) = .failed s ∧
      s.scanner.error = e := by
  rw [← result_eq_parse (length_lt_limit source)] at h
  cases hrun : program (rules (source.length + 2) (source.length + 2)) (.start filename source) with
  | failed s =>
    rw [hrun] at h
    cases h
    exact ⟨s, rfl, rfl⟩
  | matched | aborted =>
    rw [hrun] at h
    cases h

theorem ParseState.reachedFrom_start (filename source : String) :
    (ParseState.start filename source).ReachedFrom (ofSource filename source) where
  scanner := (ParseState.sound_ofSource filename source).scanner
  requests := ⟨[], by simp, rfl⟩
  memory offset r hr := ((ParseState.sound_ofSource filename source).memory offset r hr).stop_in

/-- Whatever a scanner was asked for, its error shows the greatest offset where a request failed, and
exactly what was wanted there. A parse that rejects a source has sent its scanner some requests. At least
one of them failed, none of them behind the end of the source, and the furthest failure is not before the
end of any statement that was read at the top level. -/
theorem Program.errors_at_furthest (filename source : String) :
    (∀ rs : List Request, Reports filename source.toList (Recorded (ofSource filename source) rs)
      ((ofSource filename source).runAll rs).furthest ((ofSource filename source).runAll rs).error) ∧
    ∀ e, Program.parse filename source = .error (.syntactic e) → ∃ rs furthest,
      e = ((ofSource filename source).runAll rs).error ∧
      Reports filename source.toList (Recorded (ofSource filename source) rs) furthest e ∧
      e.expected ≠ [] ∧ furthest ≤ source.length ∧
      ∀ s, TopLevel (rules (source.length + 2) (source.length + 2)) (.start filename source) s →
        s.cursor.offset ≤ furthest := by
  refine ⟨reports_runAll filename source, fun e he => ?_⟩
  have hsound := ParseState.sound_ofSource filename source
  obtain ⟨s, hfailed, rfl⟩ := failed_of_parse he
  have hreached := onlyAsks_program _ (source.length + 2) _ (ParseState.reachedFrom_start filename source)
  rw [hfailed] at hreached
  obtain ⟨rs, hrs, hscanner⟩ := hreached.requests
  have hreports := reports_runAll filename source rs
  have hkeeps := (keeps_ofSource filename source).runAll rs
  rw [← hscanner] at hreports hkeeps
  obtain ⟨imports, s₁, body, s₂, himports, hbody, hatEnd, rfl⟩ := eq_of_program_failed hfailed
  have hknows : s₂.scanner.atEnd.2.Knows ⟨s₂.scanner.skipBlanks.offset, "end of input"⟩ :=
    (Request.Fails.atEnd hatEnd).knows
  refine ⟨rs, _, by rw [← hscanner], hreports, hkeeps.expected_ne_nil hknows, ?_, ?_⟩
  · rcases hreports.greatest with ⟨⟨w, hw⟩, -⟩ | ⟨-, hzero⟩
    · exact hw.offset_le hsound.scanner hrs
    · rw [hzero]
      exact Nat.zero_le _
  · intro s hs
    rw [limit_rules] at himports hbody
    have hbehind := hs.offset_le (length_lt_limit source) hsound.keeps himports hbody
    exact hbehind.trans (s₂.cursor.offset_le_skipBlanks.trans hknows.offset_le)

/-- A statement, and behind it a literal with an escape sequence that is none. -/
def choppedEscape : String := "chop x = \"a\\q"

def Outcome.behind? {α : Type} : Outcome α → Option ParseState
  | .matched _ s => some s
  | .failed _ | .aborted _ => none

theorem Outcome.eq_matched {α : Type} {o : Outcome α} {s : ParseState} (h : o.behind? = some s) :
    ∃ a, o = .matched a s := by
  cases o with
  | matched a s' => exact ⟨a, congrArg _ (Option.some.inj h)⟩
  | failed | aborted => cases h

/-- The failure inside the literal is behind that at the end of the statement. -/
theorem Program.errors_at_furthest_chop : ∃ rs furthest,
    Program.parse "" choppedEscape = .error (.syntactic ⟨["escape sequence"], ⟨1, 12, ""⟩⟩) ∧
    Reports "" choppedEscape.toList (Recorded (ofSource "" choppedEscape) rs) furthest
      ⟨["escape sequence"], ⟨1, 12, ""⟩⟩ ∧
    ∃ s, TopLevel (rules 15 15) (.start "" choppedEscape) s ∧ s.cursor.offset = 4 ∧ 4 ≤ furthest := by
  have hparse : Program.parse "" choppedEscape =
      .error (.syntactic ⟨["escape sequence"], ⟨1, 12, ""⟩⟩) := by
    -- programs are not compared, but errors are
    have herror : (Program.parse "" choppedEscape).map (fun _ => ()) =
        .error (.syntactic ⟨["escape sequence"], ⟨1, 12, ""⟩⟩) := by decide +kernel
    generalize Program.parse "" choppedEscape = result at herror
    cases result with
    | ok p => cases herror
    | error e =>
      cases herror
      rfl
  have hread : ((many importing 15 (.start "" choppedEscape)).behind?.bind fun s =>
      ((rules 15 15).statement s).behind?).map (·.cursor.offset) = some 4 := by decide +kernel
  obtain ⟨rs, furthest, -, hreports, -, -, hbehind⟩ :=
    (Program.errors_at_furthest "" choppedEscape).2 _ hparse
  refine ⟨rs, furthest, hparse, hreports, ?_⟩
  obtain ⟨s', hs', hoffset⟩ := Option.map_eq_some_iff.mp hread
  obtain ⟨s, himports, hrun⟩ := Option.bind_eq_some_iff.mp hs'
  obtain ⟨imports, himports⟩ := Outcome.eq_matched himports
  obtain ⟨n, hrun⟩ := Outcome.eq_matched hrun
  have htop : TopLevel (rules 15 15) (.start "" choppedEscape) s' := .statement (.imports himports) hrun
  exact ⟨s', htop, hoffset, hoffset ▸ hbehind s' htop⟩

end LemonScript
