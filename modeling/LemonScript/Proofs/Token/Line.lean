import Mathlib
import LemonScript.Token.Scanner
/-!
# Tokens on a line

Tokens with one blank between two of them. A token that begins with no blank and cannot be taken for
the opening of a comment is found again by a scanner: what it is does not depend on the tokens behind
it, as long as no word follows a word.
-/

namespace LemonScript

variable {t : String} {p : Char → Bool} {text : List Char} {ts : List String} {c : Char}

theorem intercalate_singleton_cons {α : Type} (sep : α) (x : List α) (xs : List (List α)) :
    [sep].intercalate (x :: xs) = x ++ xs.flatMap (sep :: ·) := by
  induction xs generalizing x with
  | nil => simp [List.intercalate]
  | cons y ys ih => simp [List.intercalate_cons_cons, ih]

/-- The characters behind a token: each further token with a blank in front. -/
def gap (ts : List String) : List Char := ts.flatMap fun t => ' ' :: t.toList

def line : List String → List Char
  | [] => []
  | t :: ts => t.toList ++ gap ts

theorem toList_intercalate_blank (ts : List String) : (" ".intercalate ts).toList = line ts := by
  rw [String.toList_intercalate]
  cases ts with
  | nil => rfl
  | cons t ts =>
    have h := intercalate_singleton_cons ' ' t.toList (ts.map String.toList)
    rw [List.flatMap_map] at h
    exact h

theorem gap_cons (t : String) (ts : List String) : gap (t :: ts) = ' ' :: line (t :: ts) := rfl

theorem head?_gap (ts : List String) : (gap ts).head? = none ∨ (gap ts).head? = some ' ' := by
  cases ts with
  | nil => exact .inl rfl
  | cons => exact .inr rfl

theorem head?_line (h : t.toList ≠ []) (ts : List String) :
    (line (t :: ts)).head? = t.toList.head? := by
  rw [line, List.head?_append_of_ne_nil _ h]

theorem takeWhile_gap (hp : ¬ p ' ') (ts : List String) : (gap ts).takeWhile p = [] := by
  cases ts with
  | nil => rfl
  | cons => rw [gap_cons, List.takeWhile_cons, if_neg hp]

/-- Whether a token begins with no blank and can neither open a comment nor go on with one. -/
def isSolid (t : String) : Bool :=
  match t.toList with
  | [] => false
  | c :: cs => !isBlank c && ((c != '(' && c != '*') || cs.isEmpty)

theorem exists_of_isSolid (h : isSolid t) :
    ∃ c cs, t.toList = c :: cs ∧ isBlank c = false ∧ (c = '(' ∨ c = '*' → cs = []) := by
  unfold isSolid at h
  split at h
  · cases h
  · next c cs heq =>
    simp only [Bool.and_eq_true, Bool.not_eq_eq_eq_not, Bool.not_true, Bool.or_eq_true, bne_iff_ne,
      List.isEmpty_iff] at h
    refine ⟨c, cs, heq, h.1, ?_⟩
    rintro (rfl | rfl)
    · exact h.2.resolve_left fun hne => hne.1 rfl
    · exact h.2.resolve_left fun hne => hne.2 rfl

section Blanks

variable {ts : List String}

/-- No comment begins on a line of solid tokens: its opening has a blank in it, and so an asterisk with
a bracket behind it would begin a token. -/
theorem commentLength?_line (hts : ∀ t ∈ ts, isSolid t) : commentLength? (line ts) = none := by
  have hprefix : commentStart.isPrefixOf (line ts) = false := by
    cases ts with
    | nil => rfl
    | cons t ts =>
      obtain ⟨c, cs, htoList, -, hbracket⟩ := exists_of_isSolid (hts t List.mem_cons_self)
      by_cases hc : c = '('
      · subst hc
        cases ts with
        | nil => simp [line, gap, htoList, hbracket, commentStart, List.isPrefixOf]
        | cons t' ts =>
          obtain ⟨c', cs', htoList', -, hstar⟩ :=
            exists_of_isSolid (hts t' (List.mem_cons_of_mem t List.mem_cons_self))
          by_cases hc' : c' = '*'
          · subst hc'
            rcases head?_gap ts with hgap | hgap
            · simp [line, gap_cons, htoList, htoList', hbracket, hstar, commentStart,
                List.head?_eq_none_iff.mp hgap, List.isPrefixOf]
            · obtain ⟨rest, hrest⟩ := List.head?_eq_some_iff.mp hgap
              simp [line, gap_cons, htoList, htoList', hbracket, hstar, commentStart, hrest,
                List.isPrefixOf]
          · have hne : ('*' == c') = false := by simpa using Ne.symm hc'
            simp [line, gap_cons, htoList, htoList', hbracket, commentStart, List.isPrefixOf, hne]
      · have hne : ('(' == c) = false := by simpa using Ne.symm hc
        simp [line, htoList, commentStart, List.isPrefixOf, hne]
  simp [commentLength?, hprefix]

theorem passBlanks_line (hts : ∀ t ∈ ts, isSolid t) (offset : Nat) :
    Cursor.passBlanks 0 offset (line ts) = ⟨offset, line ts⟩ := by
  have hcomment := commentLength?_line hts
  cases ts with
  | nil => rfl
  | cons t ts =>
    obtain ⟨c, cs, htoList, hblank, -⟩ := exists_of_isSolid (hts t List.mem_cons_self)
    simp only [line, htoList, List.cons_append] at hcomment ⊢
    simp [Cursor.passBlanks, hblank, hcomment]

theorem rest_passBlanks_gap (hts : ∀ t ∈ ts, isSolid t) (offset : Nat) :
    (Cursor.passBlanks 0 offset (gap ts)).rest = line ts := by
  cases ts with
  | nil => rfl
  | cons =>
    have hpass := passBlanks_line hts (offset + 1)
    rw [gap_cons]
    unfold Cursor.passBlanks
    rw [if_pos (by decide), hpass]

end Blanks

/-! ### Operators and words -/

theorem isPrefixOf_append_gap {p : List Char} (hp : ' ' ∉ p) (text : List Char) (ts : List String) :
    p.isPrefixOf (text ++ gap ts) = p.isPrefixOf text := by
  induction text generalizing p with
  | nil =>
    cases p with
    | nil => rfl
    | cons c cs =>
      have hc : (c == ' ') = false := by
        simpa using fun h : c = ' ' => hp (h ▸ List.mem_cons_self)
      cases ts with
      | nil => rfl
      | cons => simp [gap_cons, List.isPrefixOf, hc]
  | cons d text ih =>
    cases p with
    | nil => rfl
    | cons c cs =>
      have hcs : ' ' ∉ cs := fun h => hp (List.mem_cons_of_mem c h)
      simp [List.isPrefixOf, ih hcs]

theorem not_mem_longerOperators (op : String) : ∀ o ∈ longerOperators op, ' ' ∉ o.toList := by
  unfold longerOperators
  split <;> simp

theorem startsWithOperator_line {op : String} (hop : ' ' ∉ op.toList) (t : String) (ts : List String) :
    startsWithOperator op (line (t :: ts)) = startsWithOperator op t.toList := by
  have hlonger : ((longerOperators op).any fun o => o.toList.isPrefixOf (line (t :: ts)))
      = (longerOperators op).any fun o => o.toList.isPrefixOf t.toList := by
    rw [Bool.eq_iff_iff]
    simp only [List.any_eq_true]
    refine exists_congr fun o => and_congr_right fun ho => ?_
    rw [line, isPrefixOf_append_gap (not_mem_longerOperators op o ho)]
  unfold startsWithOperator
  rw [hlonger, line, isPrefixOf_append_gap hop]

theorem startsWithOperator_of_head {ops : List String}
    (hops : ∀ op ∈ ops, op.toList.head?.any (!p ·)) (h : text.head?.any p) :
    ∀ op ∈ ops, startsWithOperator op text = false := by
  intro op hop
  have hhead := hops op hop
  unfold startsWithOperator
  cases htoList : op.toList with
  | nil => simp [htoList] at hhead
  | cons c cs =>
    cases text with
    | nil => simp at h
    | cons d =>
      have hne : c ≠ d := by
        rintro rfl
        simp_all
      simp [List.isPrefixOf, hne]

/-- Whether no word stands ahead. -/
def Punctuated (ts : List String) : Prop := (line ts).head?.any isLetter = false

theorem Punctuated.startsWithWord (h : Punctuated ts) (k : Keyword) :
    startsWithWord k.spelling.toList (line ts) = false := by
  have hhead : k.spelling.toList.head?.any isLetter := by cases k <;> rfl
  unfold Punctuated at h
  unfold LemonScript.startsWithWord
  cases hword : k.spelling.toList with
  | nil => simp [hword] at hhead
  | cons c cs =>
    cases hline : line ts with
    | nil => rfl
    | cons d =>
      have hne : c ≠ d := by
        rintro rfl
        simp_all
      simp [List.isPrefixOf, hne]

theorem Punctuated.identifier? (h : Punctuated ts) : identifier? (line ts) = none := by
  unfold Punctuated at h
  simp [LemonScript.identifier?, h]

/-- Whether a letter stands behind each blank. -/
def isPhrase : List Char → Bool
  | [] => true
  | c :: cs => (c != ' ' || cs.head?.any isLetter) && isPhrase cs

theorem isPhrase_spelling (k : Keyword) : isPhrase k.spelling.toList := by
  cases k <;> rfl

/-- A phrase of several words does not reach beyond a word that no word follows. -/
theorem isPrefixOf_phrase {p : List Char} (hp : isPhrase p) (word : List Char) (hts : Punctuated ts) :
    p.isPrefixOf (word ++ gap ts) = p.isPrefixOf word := by
  induction word generalizing p with
  | nil =>
    cases p with
    | nil => rfl
    | cons c cs =>
      simp only [isPhrase, Bool.and_eq_true, Bool.or_eq_true, bne_iff_ne] at hp
      cases ts with
      | nil => rfl
      | cons t ts =>
        have hmismatch : (c == ' ' && cs.isPrefixOf (line (t :: ts))) = false := by
          by_cases hc : c = ' '
          · have hletter := hp.1.resolve_left (not_not_intro hc)
            cases cs with
            | nil => simp at hletter
            | cons d ds =>
              unfold Punctuated at hts
              cases hline : line (t :: ts) with
              | nil => simp [List.isPrefixOf]
              | cons d' =>
                rw [hline] at hts
                have hne : d ≠ d' := by
                  rintro rfl
                  simp_all
                simp [List.isPrefixOf, hne]
          · simp [hc]
        simpa [gap_cons, List.isPrefixOf] using hmismatch
  | cons d word ih =>
    cases p with
    | nil => rfl
    | cons c cs =>
      have hcs : isPhrase cs := (Bool.and_eq_true _ _ ▸ hp : _ ∧ _).2
      simp [List.isPrefixOf, ih hcs]

theorem startsWithWord_line {k : Keyword} (word : String) (hts : Punctuated ts) :
    startsWithWord k.spelling.toList (line (word :: ts)) =
      startsWithWord k.spelling.toList word.toList := by
  unfold startsWithWord
  rw [line, isPrefixOf_phrase (isPhrase_spelling k) _ hts]
  cases hprefix : k.spelling.toList.isPrefixOf word.toList with
  | false => rfl
  | true =>
    obtain ⟨behind, hbehind⟩ := List.isPrefixOf_iff_prefix.mp hprefix
    rw [← hbehind, List.append_assoc, List.drop_left, List.drop_left]
    cases behind with
    | nil =>
      rcases head?_gap ts with hgap | hgap <;> rw [List.nil_append, hgap]
      · rfl
      · rfl
    | cons => rfl

theorem identifier?_line (word : String) (hts : Punctuated ts) :
    identifier? (line (word :: ts)) = identifier? word.toList := by
  have hreserved : startsWithReserved (line (word :: ts)) = startsWithReserved word.toList := by
    unfold startsWithReserved
    congr 1
    funext k
    exact startsWithWord_line word hts
  have hhead : (line (word :: ts)).head?.any isLetter = word.toList.head?.any isLetter := by
    rw [line]
    cases word.toList with
    | nil =>
      rcases head?_gap ts with hgap | hgap <;> rw [List.nil_append, hgap]
      · rfl
      · rfl
    | cons => rfl
  have htake : (line (word :: ts)).takeWhile isIdentifierChar =
      word.toList.takeWhile isIdentifierChar := by
    rw [line, List.takeWhile_append, takeWhile_gap (by decide)]
    split
    · next h =>
      rw [List.append_nil]
      exact ((List.takeWhile_sublist _).eq_of_length h).symm
    · rfl
  unfold identifier?
  rw [hreserved, hhead, htake]

theorem starts_of_identifier? {name : List Char} (h : identifier? text = some name) :
    text.head?.any isLetter ∧ startsWithReserved text = false := by
  unfold identifier? at h
  split at h
  · next hstarts => simpa using hstarts
  · cases h

/-! ### Numerals -/

def isNumeral (t : String) : Bool :=
  !t.toList.isEmpty && t.toList.all isDigit

theorem isLetter_eq_false_of_isDigit (h : isDigit c) : isLetter c = false := by
  have hcodes : ∀ n < 0x3A, inRanges n letterRanges = false := by decide +kernel
  simp only [isDigit, Bool.and_eq_true, decide_eq_true_eq] at h
  have hle : c.toNat ≤ 0x39 := h.2
  exact hcodes c.toNat (by omega)

theorem head_of_isNumeral (h : isNumeral t) : t.toList.head?.any isDigit := by
  cases ht : t.toList with
  | nil => simp [isNumeral, ht] at h
  | cons => simp_all [isNumeral]

theorem takeWhile_isDigit_line (ht : isNumeral t) (ts : List String) :
    (line (t :: ts)).takeWhile isDigit = t.toList := by
  simp only [isNumeral, Bool.and_eq_true, List.all_eq_true] at ht
  rw [line, List.takeWhile_append_of_pos ht.2, takeWhile_gap (by decide), List.append_nil]

theorem number?_line (ht : isNumeral t) (ts : List String) :
    number? (line (t :: ts)) = some ⟨t.toList, none⟩ := by
  have htake := takeWhile_isDigit_line ht ts
  have hdrop : (line (t :: ts)).dropWhile isDigit = gap ts := by
    have h := List.takeWhile_append_dropWhile (p := isDigit) (l := line (t :: ts))
    rw [htake, line] at h
    exact List.append_cancel_left h
  have hne : t.toList ≠ [] := by
    simp only [isNumeral, Bool.and_eq_true, Bool.not_eq_eq_eq_not, Bool.not_true] at ht
    simpa using ht.1
  unfold number?
  rw [htake, hdrop]
  split
  · next h => exact absurd h hne
  · cases ts with
    | nil | cons => rfl

theorem number?_eq_none (h : text.head?.any isDigit = false) : number? text = none := by
  have htake : text.takeWhile isDigit = [] := by
    cases text with
    | nil => rfl
    | cons => rw [List.takeWhile_cons, if_neg (by simpa using h)]
  unfold number?
  rw [htake]

/-! ### Solid tokens -/

theorem isSolid_of_head {cs : List Char} (ht : t.toList = c :: cs) (hblank : isBlank c = false)
    (hbracket : c ≠ '(') (hstar : c ≠ '*') : isSolid t := by
  simp [isSolid, ht, hblank, hbracket, hstar]

theorem isLetter_eq_false_of_isBlank (h : isBlank c) : isLetter c = false := by
  have hcodes : ∀ n ∈ [0x09, 0x0A, 0x0B, 0x0C, 0x0D, 0x20, 0x85, 0xA0, 0x1680, 0x2000, 0x2001, 0x2002,
      0x2003, 0x2004, 0x2005, 0x2006, 0x2007, 0x2008, 0x2009, 0x200A, 0x2028, 0x2029, 0x202F, 0x205F,
      0x3000], inRanges n letterRanges = false := by decide +kernel
  refine hcodes c.toNat ?_
  simp only [isBlank, Bool.or_eq_true, Bool.and_eq_true, decide_eq_true_eq, beq_iff_eq] at h
  simp only [List.mem_cons, List.not_mem_nil, or_false]
  omega

theorem isSolid_of_isLetter (h : t.toList.head?.any isLetter) : isSolid t := by
  cases ht : t.toList with
  | nil => simp [ht] at h
  | cons c cs =>
    have hletter : isLetter c := by simpa [ht] using h
    have hblank : isBlank c = false := by
      by_contra hblank
      rw [isLetter_eq_false_of_isBlank (Bool.eq_true_of_not_eq_false hblank)] at hletter
      cases hletter
    refine isSolid_of_head ht hblank ?_ ?_
    · rintro rfl
      exact absurd hletter (by decide)
    · rintro rfl
      exact absurd hletter (by decide)

theorem isSolid_of_isNumeral (h : isNumeral t) : isSolid t := by
  cases ht : t.toList with
  | nil => simp [isNumeral, ht] at h
  | cons c cs =>
    simp only [isNumeral, ht, List.isEmpty_cons, Bool.not_false, Bool.true_and, List.all_cons,
      isDigit, Bool.and_eq_true, decide_eq_true_eq] at h
    have hcode : 0x30 ≤ c.toNat ∧ c.toNat ≤ 0x39 := h.1
    have hblank : isBlank c = false := by
      by_contra hblank
      simp [isBlank] at hblank
      omega
    refine isSolid_of_head ht hblank ?_ ?_
    · rintro rfl
      simp at hcode
    · rintro rfl
      simp at hcode

end LemonScript
