import LemonScript.Proofs.Token.Notes
import LemonScript.Proofs.Token.StringLiteral
/-!
# Questions for tokens

A scanner that is asked for a token passes the blanks and looks at what is ahead. So what it answers,
how far it goes and what it notes depend on the characters ahead, and not on what was noted before.
Of the offset only the answer itself can hold a trace, since tokens carry their offsets. The seven
questions that the grammar asks are of this kind.
-/

namespace LemonScript

namespace Scanner

variable {β γ : Type}

/-- How a question is answered where this is ahead behind the blanks: the scanner passes some
characters, or it notes what it was asked for. No offset in the answer is seen by `view`. -/
def Answered (view : β → γ) (f : Scanner → β × Scanner) (rest : List Char) : Prop :=
  (∃ (answer : Nat → β) (n : Nat), (∀ o o', view (answer o) = view (answer o')) ∧
    ∀ s : Scanner, s.cursor.skipBlanks.rest = rest →
      f s = (answer s.cursor.skipBlanks.offset, s.skipBlanks.advance n)) ∨
  ∃ (answer : β) (k : Nat) (wanted : String), ∀ s : Scanner, s.cursor.skipBlanks.rest = rest →
    f s = (answer, s.skipBlanks.failAt (s.cursor.skipBlanks.offset + k) wanted)

structure Question (view : β → γ) (f : Scanner → β × Scanner) : Prop where
  reads : ∀ {source : List Char} {s : Scanner}, s.Reads source → (f s).2.Reads source
  answered : ∀ rest, Answered view f rest

/-- The answer, the place behind it and the notes depend only on the place where the scanner stands. -/
def Local (f : Scanner → β × Scanner) : Prop :=
  ∀ c : Cursor, ∃ (b : β) (stop : Cursor) (notes : List Note), ∀ s : Scanner, s.cursor = c →
    f s = (b, (s.noteAll notes).reset stop)

variable {view : β → γ} {f : Scanner → β × Scanner}

theorem Question.isLocal (hf : Question view f) : Local f := by
  intro c
  rcases hf.answered c.skipBlanks.rest with ⟨answer, n, -, h⟩ | ⟨answer, k, wanted, h⟩
  · refine ⟨answer c.skipBlanks.offset, c.skipBlanks.advance n, [], ?_⟩
    rintro s rfl
    exact h s rfl
  · refine ⟨answer, c.skipBlanks, [⟨c.skipBlanks.offset + k, wanted⟩], ?_⟩
    rintro s rfl
    rw [h s rfl]
    exact congrArg (Prod.mk answer) (failAt_reset s _ _ wanted)

/-- Where the same is ahead, two scanners give the same answer, as far as `view` can tell, and pass the
same number of characters. -/
theorem Question.looksAhead (hf : Question view f) {s s' : Scanner}
    (hrest : s.cursor.skipBlanks.rest = s'.cursor.skipBlanks.rest) :
    view (f s).1 = view (f s').1 ∧ ∃ n, (f s).2.cursor = s.cursor.skipBlanks.advance n ∧
      (f s').2.cursor = s'.cursor.skipBlanks.advance n := by
  rcases hf.answered s'.cursor.skipBlanks.rest with ⟨answer, n, hview, h⟩ | ⟨answer, k, wanted, h⟩
  · rw [h s hrest, h s' rfl]
    exact ⟨hview _ _, n, rfl, rfl⟩
  · rw [h s hrest, h s' rfl]
    refine ⟨rfl, 0, ?_, ?_⟩
    · exact cursor_failAt s.skipBlanks _ wanted
    · exact cursor_failAt s'.skipBlanks _ wanted

/-! ### Tests -/

theorem question_atEnd : Question id atEnd := by
  refine ⟨fun h => h.atEnd.reads, fun rest => ?_⟩
  by_cases hempty : rest.isEmpty = true
  · refine .inl ⟨fun _ => true, 0, fun _ _ => rfl, ?_⟩
    rintro s rfl
    exact if_pos hempty
  · refine .inr ⟨false, 0, "end of input", ?_⟩
    rintro s rfl
    exact if_neg hempty

theorem question_keyword (k : Keyword) : Question id (·.keyword k) := by
  refine ⟨fun h => (h.keyword k).1.reads, fun rest => ?_⟩
  by_cases hword : startsWithWord k.spelling.toList rest = true
  · refine .inl ⟨fun _ => true, k.spelling.toList.length, fun _ _ => rfl, ?_⟩
    rintro s rfl
    exact if_pos hword
  · refine .inr ⟨false, 0, TokenKind.text k, ?_⟩
    rintro s rfl
    exact if_neg hword

theorem question_operator {op : String} (hop : op ≠ "") : Question id (·.operator op) := by
  refine ⟨fun h => (h.operator hop).1.reads, fun rest => ?_⟩
  by_cases hstarts : startsWithOperator op rest = true
  · refine .inl ⟨fun _ => true, op.length, fun _ _ => rfl, ?_⟩
    rintro s rfl
    exact if_pos hstarts
  · refine .inr ⟨false, 0, quoted op, ?_⟩
    rintro s rfl
    exact if_neg hstarts

/-! ### Tokens -/

private def tokenAt (kind : TokenKind) (text : List Char) (length offset : Nat) : Token :=
  ⟨kind, String.ofList text, offset, offset + length⟩

theorem question_identifier : Question (Option.map Token.text) identifier := by
  refine ⟨fun h => h.identifier.1.reads, fun rest => ?_⟩
  cases hname : identifier? rest with
  | some name =>
    refine .inl ⟨fun o => some (tokenAt .identifier name name.length o), name.length,
      fun _ _ => rfl, ?_⟩
    rintro s rfl
    simp only [identifier, skipBlanks, reset, hname]
    rfl
  | none =>
    refine .inr ⟨none, 0, TokenKind.identifier.text, ?_⟩
    rintro s rfl
    simp only [identifier, skipBlanks, reset, hname]
    rfl

theorem question_digits : Question (Option.map Token.text) digits := by
  refine ⟨fun h => h.digits.1.reads, fun rest => ?_⟩
  cases hdigits : rest.takeWhile isDigit with
  | nil =>
    refine .inr ⟨none, 0, "integer index", ?_⟩
    rintro s rfl
    simp only [digits, skipBlanks, reset, hdigits]
    rfl
  | cons d ds =>
    refine .inl ⟨fun o => some (tokenAt .number (d :: ds) (d :: ds).length o), (d :: ds).length,
      fun _ _ => rfl, ?_⟩
    rintro s rfl
    simp only [digits, skipBlanks, reset, hdigits]
    rfl

theorem question_number :
    Question (Option.map fun t : Token × NumberLexeme => (t.1.text, t.2)) number := by
  refine ⟨fun h => h.number.1.reads, fun rest => ?_⟩
  cases hnumber : number? rest with
  | some n =>
    refine .inl ⟨fun o => some (tokenAt .number n.text n.text.length o, n), n.text.length,
      fun _ _ => rfl, ?_⟩
    rintro s rfl
    simp only [number, skipBlanks, reset, hnumber]
    rfl
  | none =>
    refine .inr ⟨none, 0, TokenKind.number.text, ?_⟩
    rintro s rfl
    simp only [number, skipBlanks, reset, hnumber]
    rfl

theorem question_string : Question (Option.map Token.text) string := by
  refine ⟨fun h => h.string.1.reads, fun rest => ?_⟩
  by_cases hquote : ∃ body, rest = '"' :: body
  · obtain ⟨body, hbody⟩ := hquote
    cases hlexeme : stringBody 0 body with
    | closed value length =>
      refine .inl ⟨fun o => some (tokenAt .string value (length + 1) o), length + 1,
        fun _ _ => rfl, ?_⟩
      intro s hs
      simp only [string, skipBlanks, reset, hs.trans hbody, hlexeme]
      rfl
    | unclosed length =>
      refine .inr ⟨none, 1 + length, "closing \"", ?_⟩
      intro s hs
      simp only [string, skipBlanks, reset, hs.trans hbody, hlexeme, offset, Nat.add_assoc]
    | badEscape length =>
      refine .inr ⟨none, 1 + length, "escape sequence", ?_⟩
      intro s hs
      simp only [string, skipBlanks, reset, hs.trans hbody, hlexeme, offset, Nat.add_assoc]
  · refine .inr ⟨none, 0, TokenKind.string.text, ?_⟩
    intro s hs
    unfold string
    dsimp only
    split
    · next body hbody => exact absurd ⟨body, hs.symm.trans hbody⟩ hquote
    · rfl

end Scanner

end LemonScript
