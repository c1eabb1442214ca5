import Mathlib
import LemonScript.Proofs.Token.Scanner
/-!
# What a scanner has noted

A scanner notes each token that was wanted and not there, and forgets all notes but those at the
furthest place. So a note is known if it is one of these, or if its place was left behind. Noting
what is known changes nothing, and what is known stays known: this is why a failure need not be
noted twice.
-/

namespace LemonScript

/-! ### Ascending lists of texts -/

variable {text : String} {ts : List String}

theorem mem_insertText {t : String} : t ∈ insertText text ts ↔ t = text ∨ t ∈ ts := by
  induction ts with
  | nil => simp [insertText]
  | cons u us ih =>
    unfold insertText
    split
    · simp
    · split
      · next heq =>
        obtain rfl : text = u := by simpa using heq
        simp
      · simp only [List.mem_cons, ih]
        tauto

theorem pairwise_insertText (h : ts.Pairwise (· < ·)) : (insertText text ts).Pairwise (· < ·) := by
  induction ts with
  | nil => simp [insertText]
  | cons t ts ih =>
    have hrest : ∀ u ∈ ts, t < u := (List.pairwise_cons.mp h).1
    unfold insertText
    split
    · next hlt =>
      refine List.pairwise_cons.mpr ⟨?_, h⟩
      intro u hu
      rcases List.mem_cons.mp hu with rfl | hu
      · exact hlt
      · exact hlt.trans (hrest u hu)
    · next hnot =>
      split
      · exact h
      · next hne =>
        have hlt : t < text := lt_of_le_of_ne (not_lt.mp hnot) fun heq => hne (beq_iff_eq.mpr heq.symm)
        refine List.pairwise_cons.mpr ⟨?_, ih h.of_cons⟩
        intro u hu
        rcases mem_insertText.mp hu with rfl | hu
        · exact hlt
        · exact hrest u hu

theorem insertText_of_mem (h : ts.Pairwise (· < ·)) (hmem : text ∈ ts) :
    insertText text ts = ts := by
  induction ts with
  | nil => cases hmem
  | cons t ts ih =>
    unfold insertText
    rcases List.mem_cons.mp hmem with rfl | hmem
    · simp
    · have hlt : t < text := List.rel_of_pairwise_cons h hmem
      have hne : ¬ (text == t) = true := by simpa using hlt.ne'
      rw [if_neg hlt.not_gt, if_neg hne, ih h.of_cons hmem]

/-! ### Notes -/

structure Note where
  offset : Nat
  wanted : String

namespace Scanner

variable {s : Scanner}

/-- The note is one of those at the furthest place, or its place was left behind. -/
def Knows (s : Scanner) (n : Note) : Prop :=
  n.offset < s.furthest ∨ n.offset = s.furthest ∧ n.wanted ∈ s.expected

/-- The notes at the furthest place stand in ascending order. -/
def Ordered (s : Scanner) : Prop := s.expected.Pairwise (· < ·)

def noteAll (s : Scanner) : List Note → Scanner
  | [] => s
  | n :: ns => (s.failAt n.offset n.wanted).noteAll ns

variable {n : Note}

theorem Knows.offset_le (h : s.Knows n) : n.offset ≤ s.furthest := by
  rcases h with hlt | ⟨heq, -⟩
  · exact hlt.le
  · exact heq.le

theorem failAt_cases (s : Scanner) (offset : Nat) (wanted : String) :
    (s.furthest < offset ∧
      s.failAt offset wanted = { s with furthest := offset, expected := [wanted] }) ∨
    (offset = s.furthest ∧
      s.failAt offset wanted = { s with expected := insertText wanted s.expected }) ∨
    offset < s.furthest ∧ s.failAt offset wanted = s := by
  unfold failAt
  split
  · next hlt => exact .inl ⟨hlt, rfl⟩
  · next hle =>
    split
    · next heq => exact .inr (.inl ⟨by simpa using heq, rfl⟩)
    · next hne =>
      have hne : offset ≠ s.furthest := by simpa using hne
      exact .inr (.inr ⟨by omega, rfl⟩)

theorem failAt_of_knows (hs : s.Ordered) (h : s.Knows n) : s.failAt n.offset n.wanted = s := by
  unfold failAt
  rcases h with hlt | ⟨heq, hmem⟩
  · rw [if_neg hlt.not_gt, if_neg (by simpa using hlt.ne)]
  · rw [if_neg (by omega), if_pos (by simpa using heq), insertText_of_mem hs hmem]

theorem knows_failAt (s : Scanner) (n : Note) : (s.failAt n.offset n.wanted).Knows n := by
  rcases s.failAt_cases n.offset n.wanted with ⟨-, heq⟩ | ⟨hoffset, heq⟩ | ⟨hlt, heq⟩
  all_goals rw [heq]
  · exact .inr ⟨rfl, List.mem_singleton.mpr rfl⟩
  · exact .inr ⟨hoffset, mem_insertText.mpr (.inl rfl)⟩
  · exact .inl hlt

theorem Knows.failAt (h : s.Knows n) (offset : Nat) (wanted : String) :
    (s.failAt offset wanted).Knows n := by
  rcases s.failAt_cases offset wanted with ⟨hlt, heq⟩ | ⟨-, heq⟩ | ⟨-, heq⟩
  all_goals rw [heq]
  · exact .inl (h.offset_le.trans_lt hlt)
  · exact h.imp_right fun ⟨heq, hmem⟩ => ⟨heq, mem_insertText.mpr (.inr hmem)⟩
  · exact h

theorem Ordered.failAt (h : s.Ordered) (offset : Nat) (wanted : String) :
    (s.failAt offset wanted).Ordered := by
  rcases s.failAt_cases offset wanted with ⟨-, heq⟩ | ⟨-, heq⟩ | ⟨-, heq⟩
  all_goals rw [heq]
  · exact List.pairwise_singleton _ _
  · exact pairwise_insertText h
  · exact h

theorem failAt_reset (s : Scanner) (c : Cursor) (offset : Nat) (wanted : String) :
    (s.reset c).failAt offset wanted = (s.failAt offset wanted).reset c := by
  unfold failAt
  by_cases hlt : s.furthest < offset
  · rw [if_pos hlt, if_pos (show (s.reset c).furthest < offset from hlt)]
    rfl
  · rw [if_neg hlt, if_neg (show ¬ (s.reset c).furthest < offset from hlt)]
    by_cases heq : (offset == s.furthest) = true
    · rw [if_pos heq, if_pos (show (offset == (s.reset c).furthest) = true from heq)]
      rfl
    · rw [if_neg heq, if_neg (show ¬ (offset == (s.reset c).furthest) = true from heq)]

theorem noteAll_reset (s : Scanner) (c : Cursor) (ns : List Note) :
    (s.reset c).noteAll ns = (s.noteAll ns).reset c := by
  induction ns generalizing s with
  | nil => rfl
  | cons n ns ih => rw [noteAll, failAt_reset, ih, noteAll]

theorem noteAll_append (s : Scanner) (ns ns' : List Note) :
    s.noteAll (ns ++ ns') = (s.noteAll ns).noteAll ns' := by
  induction ns generalizing s with
  | nil => rfl
  | cons n ns ih => rw [List.cons_append, noteAll, ih, noteAll]

theorem noteAll_of_knows (hs : s.Ordered) {ns : List Note} (h : ∀ n ∈ ns, s.Knows n) :
    s.noteAll ns = s := by
  induction ns with
  | nil => rfl
  | cons n ns ih =>
    rw [noteAll, failAt_of_knows hs (h n List.mem_cons_self)]
    exact ih fun n' hn' => h n' (List.mem_cons_of_mem n hn')

theorem Knows.noteAll (h : s.Knows n) (ns : List Note) : (s.noteAll ns).Knows n := by
  induction ns generalizing s with
  | nil => exact h
  | cons m ns ih => exact ih (h.failAt m.offset m.wanted)

theorem knows_noteAll (s : Scanner) {ns : List Note} (h : n ∈ ns) : (s.noteAll ns).Knows n := by
  induction ns generalizing s with
  | nil => cases h
  | cons m ns ih =>
    rcases List.mem_cons.mp h with rfl | h
    · exact (s.knows_failAt n).noteAll ns
    · exact ih _ h

theorem Ordered.noteAll (h : s.Ordered) (ns : List Note) : (s.noteAll ns).Ordered := by
  induction ns generalizing s with
  | nil => exact h
  | cons n ns ih => exact ih (h.failAt n.offset n.wanted)

theorem noteAll_eq (s : Scanner) (ns : List Note) :
    ∃ furthest expected, s.noteAll ns = ⟨s.filename, s.source, s.cursor, furthest, expected⟩ := by
  induction ns generalizing s with
  | nil => exact ⟨_, _, rfl⟩
  | cons n ns ih =>
    obtain ⟨furthest, expected, h⟩ := ih (s.failAt n.offset n.wanted)
    refine ⟨furthest, expected, ?_⟩
    rw [noteAll, h]
    rcases s.failAt_cases n.offset n.wanted with ⟨-, heq⟩ | ⟨-, heq⟩ | ⟨-, heq⟩
    all_goals rw [heq]

theorem source_noteAll (s : Scanner) (ns : List Note) : (s.noteAll ns).source = s.source := by
  obtain ⟨furthest, expected, h⟩ := s.noteAll_eq ns
  rw [h]

theorem filename_noteAll (s : Scanner) (ns : List Note) : (s.noteAll ns).filename = s.filename := by
  obtain ⟨furthest, expected, h⟩ := s.noteAll_eq ns
  rw [h]

end Scanner

end LemonScript
