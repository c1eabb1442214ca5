import LemonScript.Token.Scanner
/-!
# Where the scanner stands

A scanner only ever stands at places of its source, and asking it for a token never moves it back.
If the token is there, the scanner ends strictly behind the place where it was asked. What the
grammar needs to know about the progress of a parse rests on the statements of this module.
-/

namespace LemonScript

/-- What is ahead of the place is what the source has there. -/
def Cursor.In (source : List Char) (c : Cursor) : Prop :=
  c.offset ≤ source.length ∧ c.rest = source.drop c.offset

namespace Cursor

variable {source : List Char} {c : Cursor}

theorem In.length (h : c.In source) : c.offset + c.rest.length = source.length := by
  obtain ⟨hle, hrest⟩ := h
  rw [hrest, List.length_drop]
  omega

theorem In.eq_ofOffset (h : c.In source) : c = Cursor.ofOffset source c.offset := by
  obtain ⟨offset, rest⟩ := c
  exact congrArg (Cursor.mk offset) h.2

theorem In.advance (h : c.In source) {n : Nat} (hn : n ≤ c.rest.length) :
    (c.advance n).In source := by
  have hlength := h.length
  refine ⟨by simp only [Cursor.advance]; omega, ?_⟩
  simp only [Cursor.advance, h.2, List.drop_drop]

theorem passBlanks_eq (pending offset : Nat) (cs : List Char) :
    ∃ k ≤ cs.length, passBlanks pending offset cs = ⟨offset + k, cs.drop k⟩ := by
  induction cs generalizing pending offset with
  | nil => exact ⟨0, by simp [passBlanks]⟩
  | cons c cs ih =>
    -- one character is passed, and the rest is as the induction hypothesis says
    have hstep : ∀ pending, ∃ k ≤ (c :: cs).length,
        passBlanks pending (offset + 1) cs = ⟨offset + k, (c :: cs).drop k⟩ := by
      intro pending
      obtain ⟨k, hk, heq⟩ := ih pending (offset + 1)
      refine ⟨k + 1, by simpa using hk, ?_⟩
      rw [heq, List.drop_succ_cons]
      congr 1
      omega
    cases pending with
    | succ n => exact hstep n
    | zero =>
      simp only [passBlanks]
      split
      · exact hstep 0
      · split
        · exact hstep _
        · exact ⟨0, by simp⟩

theorem skipBlanks_eq_advance (c : Cursor) : ∃ k ≤ c.rest.length, c.skipBlanks = c.advance k :=
  passBlanks_eq 0 c.offset c.rest

theorem offset_le_skipBlanks (c : Cursor) : c.offset ≤ c.skipBlanks.offset := by
  obtain ⟨k, -, hskip⟩ := c.skipBlanks_eq_advance
  rw [hskip]
  exact Nat.le_add_right _ _

theorem In.skipBlanks (h : c.In source) :
    c.skipBlanks.In source ∧ c.offset ≤ c.skipBlanks.offset := by
  refine ⟨?_, c.offset_le_skipBlanks⟩
  obtain ⟨k, hk, hskip⟩ := c.skipBlanks_eq_advance
  rw [hskip]
  exact h.advance hk

end Cursor

/-- The scanner reads this source and stands in it. -/
structure Scanner.Reads (source : List Char) (s : Scanner) : Prop where
  source_eq : s.source = source
  cursor_in : s.cursor.In source

namespace Scanner

variable {source : List Char} {s : Scanner}

theorem Reads.reset (h : s.Reads source) {c : Cursor} (hc : c.In source) :
    (s.reset c).Reads source :=
  ⟨h.source_eq, hc⟩

theorem cursor_failAt (s : Scanner) (offset : Nat) (wanted : String) :
    (s.failAt offset wanted).cursor = s.cursor := by
  unfold failAt
  split
  · rfl
  · split <;> rfl

theorem source_failAt (s : Scanner) (offset : Nat) (wanted : String) :
    (s.failAt offset wanted).source = s.source := by
  unfold failAt
  split
  · rfl
  · split <;> rfl

theorem Reads.failAt (h : s.Reads source) (offset : Nat) (wanted : String) :
    (s.failAt offset wanted).Reads source ∧ (s.failAt offset wanted).cursor = s.cursor := by
  refine ⟨⟨?_, ?_⟩, s.cursor_failAt offset wanted⟩
  · rw [source_failAt, h.source_eq]
  · rw [cursor_failAt]
    exact h.cursor_in

theorem Reads.skipBlanks (h : s.Reads source) :
    s.skipBlanks.Reads source ∧ s.offset ≤ s.skipBlanks.offset :=
  ⟨h.reset h.cursor_in.skipBlanks.1, h.cursor_in.skipBlanks.2⟩

/-- The second scanner is a later one of the same source. -/
structure Later (source : List Char) (s s' : Scanner) : Prop where
  reads : s'.Reads source
  le : s.offset ≤ s'.offset

theorem Reads.later_failAt (h : s.Reads source) (offset : Nat) (wanted : String) :
    Later source s (s.skipBlanks.failAt offset wanted) := by
  obtain ⟨hreads, hle⟩ := h.skipBlanks
  obtain ⟨hfail, hcursor⟩ := hreads.failAt offset wanted
  refine ⟨hfail, ?_⟩
  simp only [Scanner.offset, hcursor]
  exact hle

theorem Reads.later_advance (h : s.Reads source) {n : Nat} (hn : n ≤ s.skipBlanks.cursor.rest.length)
    (hpos : 0 < n) :
    Later source s (s.skipBlanks.advance n) ∧ s.offset < (s.skipBlanks.advance n).offset := by
  obtain ⟨hreads, hle⟩ := h.skipBlanks
  have hoffset : (s.skipBlanks.advance n).offset = s.skipBlanks.offset + n := rfl
  refine ⟨⟨hreads.reset (hreads.cursor_in.advance hn), ?_⟩, ?_⟩ <;> omega

/-! ### The lengths of tokens -/

theorem number?_length {text : List Char} {n : NumberLexeme} (h : number? text = some n) :
    n.text.length ≤ text.length ∧ 0 < n.text.length := by
  have hsplit : (text.takeWhile isDigit).length + (text.dropWhile isDigit).length = text.length := by
    rw [← List.length_append, List.takeWhile_append_dropWhile]
  unfold number? at h
  split at h
  · simp at h
  · next whole hnil =>
    have hpos : 0 < (text.takeWhile isDigit).length := List.length_pos_iff.mpr hnil
    split at h
    · next c rest hdrop =>
      have hfraction := (List.takeWhile_prefix isDigit (l := c :: rest)).length_le
      rw [hdrop] at hsplit
      simp only [List.length_cons] at hsplit hfraction
      split at h <;> obtain rfl := Option.some.inj h <;> simp only [NumberLexeme.text]
      · simp only [List.length_append, List.length_cons]
        omega
      · omega
    · obtain rfl := Option.some.inj h
      simp only [NumberLexeme.text]
      omega

/-! ### The tokens -/

/-- What a question for a token does to a scanner: it moves on, strictly so if the token is there. -/
def Answers (source : List Char) (s : Scanner) (found : Prop) (s' : Scanner) : Prop :=
  Later source s s' ∧ (found → s.offset < s'.offset)

theorem Reads.answers_fail (h : s.Reads source) {found : Prop} (hnot : ¬ found) (offset : Nat)
    (wanted : String) : Answers source s found (s.skipBlanks.failAt offset wanted) :=
  ⟨h.later_failAt offset wanted, fun hfound => absurd hfound hnot⟩

theorem Reads.answers_advance (h : s.Reads source) {found : Prop} {n : Nat}
    (hn : n ≤ s.skipBlanks.cursor.rest.length) (hpos : 0 < n) :
    Answers source s found (s.skipBlanks.advance n) :=
  ⟨(h.later_advance hn hpos).1, fun _ => (h.later_advance hn hpos).2⟩

theorem Reads.atEnd (h : s.Reads source) : Later source s s.atEnd.2 := by
  unfold Scanner.atEnd
  dsimp only
  split
  · exact ⟨h.skipBlanks.1, h.skipBlanks.2⟩
  · exact h.later_failAt _ _

section Replies

variable {β : Type} {missing : β} {wanted : String} {strict : Prop} {reply : β × Scanner}

/-- How a question for a token is answered that can only fail behind the blanks: some characters are
passed there, or there is a note of what was wanted. -/
inductive Replies (s : Scanner) (strict : Prop) (missing : β) (wanted : String) : β × Scanner → Prop
  | found {b : β} {k : Nat} (hb : b ≠ missing) (hk : k ≤ s.skipBlanks.cursor.rest.length)
      (hpos : strict → 0 < k) : Replies s strict missing wanted (b, s.skipBlanks.advance k)
  | missed : Replies s strict missing wanted (missing, s.skipBlanks.failAt s.skipBlanks.offset wanted)

theorem Replies.answers (hr : Replies s strict missing wanted reply) (h : s.Reads source) (hs : strict) :
    Answers source s (reply.1 ≠ missing) reply.2 := by
  cases hr with
  | found hb hk hpos => exact h.answers_advance hk (hpos hs)
  | missed => exact h.answers_fail (fun hne => hne rfl) _ _

theorem replies_atEnd (s : Scanner) : Replies s False false "end of input" s.atEnd := by
  unfold Scanner.atEnd
  dsimp only
  split
  · exact .found (k := 0) (by decide) (Nat.zero_le _) False.elim
  · exact .missed

theorem replies_keyword (s : Scanner) (k : TokenKind) :
    Replies s (k.spelling ≠ "") false k.text (s.keyword k) := by
  unfold Scanner.keyword
  dsimp only
  split
  · next hword =>
    simp only [startsWithWord, Bool.and_eq_true, List.isPrefixOf_iff_prefix] at hword
    refine .found (by decide) hword.1.length_le fun hspelling => List.length_pos_iff.mpr ?_
    simpa using hspelling
  · exact .missed

theorem replies_operator (s : Scanner) (op : String) :
    Replies s (op ≠ "") false (quoted op) (s.operator op) := by
  unfold Scanner.operator
  dsimp only
  split
  · next hoperator =>
    simp only [startsWithOperator, Bool.and_eq_true, List.isPrefixOf_iff_prefix] at hoperator
    refine .found (by decide) (by simpa only [String.length_toList] using hoperator.1.length_le) fun hop => ?_
    rw [Nat.pos_iff_ne_zero]
    simpa using hop
  · exact .missed

theorem replies_identifier (s : Scanner) : Replies s True none "identifier" s.identifier := by
  unfold Scanner.identifier
  dsimp only
  split
  · next name hname =>
    unfold identifier? at hname
    split at hname
    · next hcondition =>
      obtain rfl := Option.some.inj hname
      refine .found (by simp) (List.takeWhile_prefix _).length_le fun _ => ?_
      cases hrest : s.skipBlanks.cursor.rest with
      | nil => simp [hrest] at hcondition
      | cons c cs =>
        have hletter : isLetter c = true := by
          rw [hrest, Bool.and_eq_true] at hcondition
          simpa using hcondition.1
        simp [isIdentifierChar, isWordChar, hletter]
    · cases hname
  · exact .missed

theorem replies_digits (s : Scanner) : Replies s True none "integer index" s.digits := by
  unfold Scanner.digits
  dsimp only
  split
  · exact .missed
  · next hnil =>
    exact .found (by simp) (List.takeWhile_prefix _).length_le fun _ => List.length_pos_iff.mpr hnil

theorem replies_number (s : Scanner) : Replies s True none "number" s.number := by
  unfold Scanner.number
  dsimp only
  split
  · next n hn => exact .found (by simp) (number?_length hn).1 fun _ => (number?_length hn).2
  · exact .missed

end Replies

theorem Reads.keyword (h : s.Reads source) (k : Keyword) :
    Answers source s ((s.keyword k).1) (s.keyword k).2 := by
  simpa using (replies_keyword s k).answers h (by cases k <;> decide)

theorem Reads.operator (h : s.Reads source) {op : String} (hop : op ≠ "") :
    Answers source s ((s.operator op).1) (s.operator op).2 := by
  simpa using (replies_operator s op).answers h hop

theorem Reads.identifier (h : s.Reads source) :
    Answers source s (s.identifier.1.isSome) s.identifier.2 := by
  simpa [Option.isSome_iff_ne_none] using (replies_identifier s).answers h trivial

theorem Reads.digits (h : s.Reads source) : Answers source s (s.digits.1.isSome) s.digits.2 := by
  simpa [Option.isSome_iff_ne_none] using (replies_digits s).answers h trivial

theorem Reads.number (h : s.Reads source) : Answers source s (s.number.1.isSome) s.number.2 := by
  simpa [Option.isSome_iff_ne_none] using (replies_number s).answers h trivial

end Scanner

end LemonScript
