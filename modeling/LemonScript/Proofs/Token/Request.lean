import LemonScript.Proofs.Token.Question
/-!
# What a scanner reports

A scanner serves requests: it is asked for a token, told to pass the blanks, or sent to another place. A
request for a token that fails leaves a note, at the place where it failed; for a string literal this may
be a place inside the literal, although the scanner itself goes back. Whatever the requests were, the
error of the scanner shows the greatest offset of all notes, and what was wanted there.
-/

namespace LemonScript

namespace Scanner

/-- What a scanner may be asked for. -/
inductive Request
  | skipBlanks
  | goTo (offset : Nat)
  | atEnd
  | keyword (k : TokenKind)
  | peekKeyword (k : TokenKind)
  | operator (op : String)
  | identifier
  | digits
  | number
  | string

def Request.run (r : Request) (s : Scanner) : Scanner :=
  match r with
  | skipBlanks => s.skipBlanks
  | goTo offset => s.goTo offset
  | atEnd => s.atEnd.2
  | keyword k => (s.keyword k).2
  | peekKeyword k => (s.peekKeyword k).2
  | operator op => (s.operator op).2
  | identifier => s.identifier.2
  | digits => s.digits.2
  | number => s.number.2
  | string => s.string.2

/-- The request fails, and leaves a note. All requests but that for a string literal fail behind the
blanks. A literal that is opened fails at the end of the source, if no quote closes it, or at a backslash
where no item begins; all that is before are items. -/
inductive Request.Fails (s : Scanner) : Request → Note → Prop
  | atEnd (h : s.atEnd.1 = false) : Fails s .atEnd ⟨s.skipBlanks.offset, "end of input"⟩
  | keyword {k : TokenKind} (h : (s.keyword k).1 = false) :
      Fails s (.keyword k) ⟨s.skipBlanks.offset, k.text⟩
  | operator {op : String} (h : (s.operator op).1 = false) :
      Fails s (.operator op) ⟨s.skipBlanks.offset, quoted op⟩
  | identifier (h : s.identifier.1 = none) : Fails s .identifier ⟨s.skipBlanks.offset, "identifier"⟩
  | digits (h : s.digits.1 = none) : Fails s .digits ⟨s.skipBlanks.offset, "integer index"⟩
  | number (h : s.number.1 = none) : Fails s .number ⟨s.skipBlanks.offset, "number"⟩
  | unopened (h : s.skipBlanks.cursor.rest.head? ≠ some '"') :
      Fails s .string ⟨s.skipBlanks.offset, "string"⟩
  | unclosed {items text : List Char} (h : s.skipBlanks.cursor.rest = '"' :: items)
      (hitems : Quotes items text) :
      Fails s .string ⟨s.skipBlanks.offset + 1 + items.length, "closing \""⟩
  | badEscape {items text rest : List Char}
      (h : s.skipBlanks.cursor.rest = '"' :: (items ++ '\\' :: rest)) (hitems : Quotes items text)
      (hescape : ∀ item c behind, Quotes item [c] → '\\' :: rest ≠ item ++ behind) :
      Fails s .string ⟨s.skipBlanks.offset + 1 + items.length, "escape sequence"⟩

/-! ### One request -/

variable {n : Note} {r : Request} {rs : List Request} {source : List Char}

section Replies

variable {β : Type} {s : Scanner} {strict : Prop} {missing : β} {wanted : String} {reply : β × Scanner}

theorem Replies.of_eq (h : Replies s strict missing wanted reply) (hmissing : reply.1 = missing) :
    reply.2 = s.skipBlanks.failAt s.skipBlanks.offset wanted := by
  cases h with
  | found hb => exact absurd hmissing hb
  | missed => rfl

theorem Replies.of_ne (h : Replies s strict missing wanted reply) (hfound : reply.1 ≠ missing) :
    ∃ k ≤ s.skipBlanks.cursor.rest.length, reply.2 = s.skipBlanks.advance k := by
  cases h with
  | found hb hk => exact ⟨_, hk, rfl⟩
  | missed => exact absurd rfl hfound

end Replies

namespace Request

variable {r : Request} {s : Scanner} {n : Note}

theorem Fails.run_eq (h : r.Fails s n) : r.run s = s.skipBlanks.failAt n.offset n.wanted := by
  cases h with
  | atEnd h => exact (replies_atEnd s).of_eq h
  | keyword h => exact (replies_keyword s _).of_eq h
  | operator h => exact (replies_operator s _).of_eq h
  | identifier h => exact (replies_identifier s).of_eq h
  | digits h => exact (replies_digits s).of_eq h
  | number h => exact (replies_number s).of_eq h
  | unopened h => exact congrArg Prod.snd (string_of_unopened h)
  | unclosed h hitems => exact congrArg Prod.snd (string_of_unclosed hitems h)
  | badEscape h hitems hescape =>
    exact congrArg Prod.snd (string_of_badEscape hitems h (Quotes.escape?_eq_none_iff.mpr hescape))

theorem Fails.knows (h : r.Fails s n) : (r.run s).Knows n := by
  rw [h.run_eq]
  exact knows_failAt _ n

theorem Fails.offset_le (h : r.Fails s n) :
    n.offset ≤ s.skipBlanks.offset + s.skipBlanks.cursor.rest.length := by
  cases h with
  | unclosed h =>
    rw [h, List.length_cons]
    dsimp only
    omega
  | badEscape h =>
    rw [h, List.length_cons, List.length_append]
    dsimp only
    omega
  | _ => exact Nat.le_add_right _ _

/-- A request that does not fail takes no note: it goes to the place that it names, or passes some
characters behind the blanks. -/
theorem run_of_not_fails (h : ∀ n, ¬ r.Fails s n) : (∃ offset, r = .goTo offset) ∨
    ∃ k ≤ s.skipBlanks.cursor.rest.length, r.run s = s.skipBlanks.advance k := by
  cases r with
  | goTo offset => exact .inl ⟨offset, rfl⟩
  | skipBlanks | peekKeyword => exact .inr ⟨0, Nat.zero_le _, rfl⟩
  | atEnd => exact .inr ((replies_atEnd s).of_ne fun hm => h _ (.atEnd hm))
  | keyword k => exact .inr ((replies_keyword s k).of_ne fun hm => h _ (.keyword hm))
  | operator op => exact .inr ((replies_operator s op).of_ne fun hm => h _ (.operator hm))
  | identifier => exact .inr ((replies_identifier s).of_ne fun hm => h _ (.identifier hm))
  | digits => exact .inr ((replies_digits s).of_ne fun hm => h _ (.digits hm))
  | number => exact .inr ((replies_number s).of_ne fun hm => h _ (.number hm))
  | string =>
    by_cases hquote : s.skipBlanks.cursor.rest.head? = some '"'
    · obtain ⟨ahead, hahead⟩ := List.head?_eq_some_iff.mp hquote
      obtain ⟨items, text, rest, rfl, hitems, hend⟩ := exists_items ahead
      cases hend with
      | nothing =>
        rw [List.append_nil] at hahead
        exact absurd (.unclosed hahead hitems) (h _)
      | badEscape hescape =>
        exact absurd (.badEscape hahead hitems (Quotes.escape?_eq_none_iff.mp hescape)) (h _)
      | quote =>
        refine .inr ⟨items.length + 2, ?_, congrArg Prod.snd (string_of_closed hitems hahead)⟩
        rw [hahead, List.length_cons, List.length_append, List.length_cons]
        omega
    · exact absurd (.unopened hquote) (h _)

end Request

/-! ### What is kept of the notes -/

/-- The scanner has kept, of some notes, those at the greatest offset. -/
structure Keeps (s : Scanner) (notes : Note → Prop) : Prop where
  ordered : s.Ordered
  knows : ∀ n, notes n → s.Knows n
  noted : ∀ w ∈ s.expected, notes ⟨s.furthest, w⟩
  start : s.expected = [] → s.furthest = 0

namespace Keeps

variable {s : Scanner} {notes : Note → Prop}

theorem mem_expected (h : s.Keeps notes) {w : String} : w ∈ s.expected ↔ notes ⟨s.furthest, w⟩ := by
  refine ⟨h.noted w, fun hnote => ?_⟩
  rcases h.knows _ hnote with hlt | ⟨-, hmem⟩
  · exact absurd hlt (lt_irrefl _)
  · exact hmem

theorem expected_ne_nil (h : s.Keeps notes) (hn : s.Knows n) : s.expected ≠ [] := by
  intro hnil
  rcases hn with hlt | ⟨-, hmem⟩
  · have hstart := h.start hnil
    omega
  · rw [hnil] at hmem
    cases hmem

theorem greatest (h : s.Keeps notes) :
    IsGreatest {o | ∃ w, notes ⟨o, w⟩} s.furthest ∨ (∀ n, ¬ notes n) ∧ s.furthest = 0 := by
  cases hexpected : s.expected with
  | nil => exact .inr ⟨fun n hn => h.expected_ne_nil (h.knows n hn) hexpected, h.start hexpected⟩
  | cons w ws =>
    refine .inl ⟨⟨w, h.noted w (by simp [hexpected])⟩, ?_⟩
    rintro o ⟨w, hw⟩
    exact (h.knows _ hw).offset_le

theorem congr {notes' : Note → Prop} (h : s.Keeps notes) (hnotes : ∀ n, notes n ↔ notes' n) :
    s.Keeps notes' where
  ordered := h.ordered
  knows n hn := h.knows n ((hnotes n).mpr hn)
  noted w hw := (hnotes _).mp (h.noted w hw)
  start := h.start

theorem reset (h : s.Keeps notes) (c : Cursor) : (s.reset c).Keeps notes :=
  ⟨h.ordered, h.knows, h.noted, h.start⟩

theorem failAt (h : s.Keeps notes) (n : Note) :
    (s.failAt n.offset n.wanted).Keeps fun n' => notes n' ∨ n' = n := by
  have hknows : ∀ n', notes n' ∨ n' = n → (s.failAt n.offset n.wanted).Knows n' := by
    rintro n' (hn' | rfl)
    · exact (h.knows n' hn').failAt _ _
    · exact s.knows_failAt n'
  refine ⟨h.ordered.failAt _ _, hknows, ?_, ?_⟩
  all_goals
    rcases s.failAt_cases n.offset n.wanted with ⟨-, heq⟩ | ⟨hoffset, heq⟩ | ⟨-, heq⟩
    all_goals rw [heq]
  · intro w hw
    obtain rfl : w = n.wanted := by simpa using hw
    exact .inr rfl
  · intro w hw
    rcases mem_insertText.mp hw with rfl | hw
    · exact .inr (by rw [← hoffset])
    · exact .inl (h.noted w hw)
  · exact fun w hw => .inl (h.noted w hw)
  · intro hnil
    cases hnil
  · intro hnil
    have hmem : n.wanted ∈ insertText n.wanted s.expected := mem_insertText.mpr (.inl rfl)
    rw [show insertText n.wanted s.expected = [] from hnil] at hmem
    cases hmem
  · exact h.start

end Keeps

/-! ### Histories -/

def runAll : Scanner → List Request → Scanner
  | s, [] => s
  | s, r :: rs => (r.run s).runAll rs

/-- A note that is taken while the requests are served. -/
inductive Recorded : Scanner → List Request → Note → Prop
  | now {s : Scanner} {r : Request} {n : Note} (rs : List Request) (h : r.Fails s n) :
      Recorded s (r :: rs) n
  | later {s : Scanner} {r : Request} {rs : List Request} {n : Note} (h : Recorded (r.run s) rs n) :
      Recorded s (r :: rs) n

theorem recorded_cons {s : Scanner} :
    Recorded s (r :: rs) n ↔ r.Fails s n ∨ Recorded (r.run s) rs n := by
  constructor
  · intro h
    cases h with
    | now _ h => exact .inl h
    | later h => exact .inr h
  · rintro (h | h)
    · exact .now rs h
    · exact .later h

variable {s : Scanner} {notes : Note → Prop}

theorem Keeps.run (h : s.Keeps notes) (r : Request) : (r.run s).Keeps fun n => notes n ∨ r.Fails s n := by
  by_cases hfails : ∃ n, r.Fails s n
  · obtain ⟨n, hn⟩ := hfails
    have hkeeps : (s.skipBlanks.failAt n.offset n.wanted).Keeps _ :=
      (h.reset s.cursor.skipBlanks).failAt n
    rw [← hn.run_eq] at hkeeps
    refine ⟨hkeeps.ordered, ?_, ?_, hkeeps.start⟩
    · rintro n' (hn' | hn')
      · exact hkeeps.knows n' (.inl hn')
      · exact hn'.knows
    · intro w hw
      rcases hkeeps.noted w hw with hw | hw
      · exact .inl hw
      · exact .inr (hw ▸ hn)
  · rw [not_exists] at hfails
    have hsame : ∀ n, notes n ↔ notes n ∨ r.Fails s n := fun n => by simp [hfails n]
    rcases Request.run_of_not_fails hfails with ⟨offset, rfl⟩ | ⟨k, -, hrun⟩
    · exact (h.reset _).congr hsame
    · rw [hrun]
      exact (h.reset _).congr hsame

theorem Keeps.runAll (h : s.Keeps notes) (rs : List Request) :
    (s.runAll rs).Keeps fun n => notes n ∨ Recorded s rs n := by
  induction rs generalizing s notes with
  | nil =>
    refine h.congr fun n => ⟨.inl, ?_⟩
    rintro (hn | hn)
    · exact hn
    · cases hn
  | cons r rs ih =>
    refine (ih (h.run r)).congr fun n => ?_
    rw [recorded_cons, or_assoc]

theorem keeps_ofSource (filename source : String) : (ofSource filename source).Keeps fun _ => False where
  ordered := List.Pairwise.nil
  knows _ hn := hn.elim
  noted _ hw := by cases hw
  start _ := rfl

theorem Request.run_eq_noteAll (r : Request) (s : Scanner) :
    ∃ notes c, r.run s = (s.noteAll notes).reset c := by
  by_cases hfails : ∃ n, r.Fails s n
  · obtain ⟨n, hn⟩ := hfails
    exact ⟨[n], s.cursor.skipBlanks, hn.run_eq.trans (failAt_reset s _ _ _)⟩
  · rw [not_exists] at hfails
    rcases run_of_not_fails hfails with ⟨offset, rfl⟩ | ⟨k, -, hrun⟩
    · exact ⟨[], _, rfl⟩
    · exact ⟨[], _, hrun⟩

theorem runAll_eq_noteAll (s : Scanner) (rs : List Request) :
    ∃ notes c, s.runAll rs = (s.noteAll notes).reset c := by
  induction rs generalizing s with
  | nil => exact ⟨[], s.cursor, rfl⟩
  | cons r rs ih =>
    obtain ⟨notes, c, hrun⟩ := r.run_eq_noteAll s
    obtain ⟨notes', c', hrunAll⟩ := ih (r.run s)
    refine ⟨notes ++ notes', c', ?_⟩
    rw [runAll, hrunAll, hrun, noteAll_reset, noteAll_append]
    rfl

theorem runAll_append (s : Scanner) (rs rs' : List Request) :
    s.runAll (rs ++ rs') = (s.runAll rs).runAll rs' := by
  induction rs generalizing s with
  | nil => rfl
  | cons r rs ih => exact ih (r.run s)

/-! ### Inside the source -/

/-- A place that is named is one of the source. -/
def Request.StaysIn (source : List Char) : Request → Prop
  | goTo offset => offset ≤ source.length
  | _ => True

theorem Reads.run (h : s.Reads source) (hr : r.StaysIn source) : (r.run s).Reads source := by
  have hblanks := h.skipBlanks.1
  by_cases hfails : ∃ n, r.Fails s n
  · obtain ⟨n, hn⟩ := hfails
    rw [hn.run_eq]
    exact (hblanks.failAt _ _).1
  · rw [not_exists] at hfails
    rcases Request.run_of_not_fails hfails with ⟨offset, rfl⟩ | ⟨k, hk, hrun⟩
    · refine h.reset ⟨hr, ?_⟩
      rw [h.source_eq]
      rfl
    · rw [hrun]
      exact hblanks.reset (hblanks.cursor_in.advance hk)

theorem Recorded.offset_le (hn : Recorded s rs n) (h : s.Reads source)
    (hrs : ∀ r ∈ rs, r.StaysIn source) : n.offset ≤ source.length := by
  induction hn with
  | now rs hfails => exact hfails.offset_le.trans h.skipBlanks.1.cursor_in.length.le
  | later _ ih =>
    rw [List.forall_mem_cons] at hrs
    exact ih (h.run hrs.1) hrs.2

/-! ### Errors -/

/-- The error shows the greatest offset of the notes, or the beginning of the source if there are none,
and what the notes at this offset wanted, in ascending order. -/
structure Reports (filename : String) (source : List Char) (notes : Note → Prop) (furthest : Nat)
    (e : SyntaxError) : Prop where
  greatest : IsGreatest {o | ∃ w, notes ⟨o, w⟩} furthest ∨ (∀ n, ¬ notes n) ∧ furthest = 0
  location : e.location = Position.ofOffset filename source furthest
  expected : ∀ w, w ∈ e.expected ↔ notes ⟨furthest, w⟩
  ascending : e.expected.Pairwise (· < ·)

theorem reports_runAll (filename source : String) (rs : List Request) :
    Reports filename source.toList (Recorded (ofSource filename source) rs)
      ((ofSource filename source).runAll rs).furthest ((ofSource filename source).runAll rs).error := by
  have hkeeps := ((keeps_ofSource filename source).runAll rs).congr fun n => by rw [false_or]
  obtain ⟨notes, c, hrun⟩ := (ofSource filename source).runAll_eq_noteAll rs
  refine ⟨hkeeps.greatest, ?_, fun w => hkeeps.mem_expected, hkeeps.ordered⟩
  rw [hrun]
  exact congrArg₂ (fun f s => Position.ofOffset f s _) (filename_noteAll _ notes) (source_noteAll _ notes)

/-! ### Questions of the grammar -/

/-- A question that the scanner serves. -/
structure Asked {β γ : Type} (view : β → γ) (f : Scanner → β × Scanner) : Prop where
  question : Question view f
  served : ∃ r : Request, (∀ source, r.StaysIn source) ∧ ∀ s, (f s).2 = r.run s

theorem asked_atEnd : Asked id atEnd :=
  ⟨question_atEnd, .atEnd, fun _ => trivial, fun _ => rfl⟩

theorem asked_keyword (k : Keyword) : Asked id (·.keyword k) :=
  ⟨question_keyword k, .keyword k, fun _ => trivial, fun _ => rfl⟩

theorem asked_operator {op : String} (hop : op ≠ "") : Asked id (·.operator op) :=
  ⟨question_operator hop, .operator op, fun _ => trivial, fun _ => rfl⟩

theorem asked_identifier : Asked (Option.map Token.text) identifier :=
  ⟨question_identifier, .identifier, fun _ => trivial, fun _ => rfl⟩

theorem asked_digits : Asked (Option.map Token.text) digits :=
  ⟨question_digits, .digits, fun _ => trivial, fun _ => rfl⟩

theorem asked_number : Asked (Option.map fun t : Token × NumberLexeme => (t.1.text, t.2)) number :=
  ⟨question_number, .number, fun _ => trivial, fun _ => rfl⟩

theorem asked_string : Asked (Option.map Token.text) string :=
  ⟨question_string, .string, fun _ => trivial, fun _ => rfl⟩

end Scanner

end LemonScript
