import Mathlib
import LemonScript.Proofs.Token.Scanner
/-!
# Identifiers and reserved phrases

A scanner that finds a letter reads a word there: an identifier, or one of the reserved phrases. Which of
the two it is depends on the character behind the phrase. An identifier may go on with letters, digits
and underscores, but a phrase is only told from the beginning of a longer word by a letter or a digit
behind it. So the words are told apart as the identifiers would have it wherever no underscore stands
directly behind a reserved phrase.
-/

namespace LemonScript

/-- The phrase stands at the beginning of a text, and no character behind it goes on with the word. -/
def Keyword.Stands (goesOn : Char → Bool) (k : Keyword) (text : List Char) : Prop :=
  ∃ rest, text = k.spelling.toList ++ rest ∧ ∀ c, rest.head? = some c → goesOn c = false

variable {k : Keyword} {text : List Char}

theorem Keyword.stands_iff {goesOn : Char → Bool} :
    k.Stands goesOn text ↔ (k.spelling.toList.isPrefixOf text &&
      !((text.drop k.spelling.toList.length).head?.any goesOn)) := by
  have hboundary : ∀ rest : List Char,
      (!rest.head?.any goesOn) = true ↔ ∀ c, rest.head? = some c → goesOn c = false := by
    intro rest
    cases rest.head? <;> simp
  rw [Bool.and_eq_true, List.isPrefixOf_iff_prefix]
  constructor
  · rintro ⟨rest, rfl, hrest⟩
    rw [List.drop_left]
    exact ⟨List.prefix_append _ _, (hboundary rest).mpr hrest⟩
  · rintro ⟨⟨rest, rfl⟩, hrest⟩
    rw [List.drop_left] at hrest
    exact ⟨rest, rfl, (hboundary rest).mp hrest⟩

instance (goesOn : Char → Bool) (k : Keyword) (text : List Char) : Decidable (k.Stands goesOn text) :=
  decidable_of_iff' _ Keyword.stands_iff

theorem Keyword.stands_isWordChar :
    k.Stands isWordChar text ↔ startsWithWord k.spelling.toList text :=
  Keyword.stands_iff

/-- Where no underscore stands behind the phrase, it does not matter whether an underscore goes on with a
word. -/
theorem Keyword.stands_congr (h : ¬ k.spelling.toList ++ ['_'] <+: text) :
    k.Stands isWordChar text ↔ k.Stands isIdentifierChar text := by
  constructor
  · rintro ⟨rest, rfl, hrest⟩
    refine ⟨rest, rfl, fun c hc => ?_⟩
    have hunderscore : c ≠ '_' := by
      rintro rfl
      obtain ⟨rest', rfl⟩ := List.head?_eq_some_iff.mp hc
      exact h ⟨rest', by simp⟩
    simp [isIdentifierChar, hrest c hc, hunderscore]
  · rintro ⟨rest, rfl, hrest⟩
    refine ⟨rest, rfl, fun c hc => ?_⟩
    have hc := hrest c hc
    rw [isIdentifierChar, Bool.or_eq_false_iff] at hc
    exact hc.1

namespace Scanner

/-- The scanner tells words apart, where some characters go on with a word. It refuses to read an
identifier if and only if a reserved phrase stands ahead, and then it reads the phrase as a keyword.
Otherwise it reads all letters, digits and underscores ahead. -/
structure TellsWords (goesOn : Char → Bool) (s : Scanner) : Prop where
  refuses : s.identifier.1 = none ↔
    ∃ k ∈ Keyword.reserved, k.Stands goesOn s.skipBlanks.cursor.rest
  keyword : ∀ k ∈ Keyword.reserved, k.Stands goesOn s.skipBlanks.cursor.rest →
    s.keyword k = (true, s.skipBlanks.advance k.spelling.toList.length)
  identifier : (∀ k ∈ Keyword.reserved, ¬ k.Stands goesOn s.skipBlanks.cursor.rest) →
    ∃ name rest, s.skipBlanks.cursor.rest = name ++ rest ∧
      (∀ c ∈ name, isIdentifierChar c = true) ∧
      (∀ c, rest.head? = some c → isIdentifierChar c = false) ∧
      s.identifier = (some ⟨.identifier, String.ofList name, s.skipBlanks.offset,
        s.skipBlanks.offset + name.length⟩, s.skipBlanks.advance name.length)

variable {s : Scanner}

theorem TellsWords.congr {goesOn goesOn' : Char → Bool} (hs : s.TellsWords goesOn)
    (h : ∀ k ∈ Keyword.reserved, k.Stands goesOn s.skipBlanks.cursor.rest ↔
      k.Stands goesOn' s.skipBlanks.cursor.rest) : s.TellsWords goesOn' where
  refuses := hs.refuses.trans (exists_congr fun k => and_congr_right (h k))
  keyword k hk hstands := hs.keyword k hk ((h k hk).mpr hstands)
  identifier hnone := hs.identifier fun k hk hstands => hnone k hk ((h k hk).mp hstands)

theorem identifier?_of_letter (h : text.head?.any isLetter) : identifier? text =
      if startsWithReserved text then none else some (text.takeWhile isIdentifierChar) := by
  rw [identifier?, h, Bool.true_and]
  cases startsWithReserved text <;> rfl

theorem startsWithReserved_iff :
    startsWithReserved text ↔ ∃ k ∈ Keyword.reserved, k.Stands isWordChar text := by
  simp only [startsWithReserved, List.any_eq_true, Keyword.stands_isWordChar]

theorem identifier_of_some {name : List Char} (h : identifier? s.skipBlanks.cursor.rest = some name) :
    s.identifier = (some ⟨.identifier, String.ofList name, s.skipBlanks.offset,
      s.skipBlanks.offset + name.length⟩, s.skipBlanks.advance name.length) := by
  simp only [Scanner.identifier, h]
  rfl

theorem identifier_of_none (h : identifier? s.skipBlanks.cursor.rest = none) :
    s.identifier = (none, s.skipBlanks.fail TokenKind.identifier.text) := by
  simp only [Scanner.identifier, h]

theorem head?_dropWhile_isIdentifierChar {c : Char}
    (h : (text.dropWhile isIdentifierChar).head? = some c) : isIdentifierChar c = false := by
  have hhead := List.head?_dropWhile_not isIdentifierChar text
  rw [h] at hhead
  exact hhead

theorem tellsWords_isWordChar (hletter : s.skipBlanks.cursor.rest.head?.any isLetter) :
    s.TellsWords isWordChar := by
  have hword := identifier?_of_letter hletter
  by_cases hreserved : startsWithReserved s.skipBlanks.cursor.rest = true
  · rw [if_pos hreserved] at hword
    have hexists := startsWithReserved_iff.mp hreserved
    refine ⟨?_, fun k hk hstands => ?_, fun hnone => ?_⟩
    · rw [identifier_of_none hword]
      exact iff_of_true rfl hexists
    · exact if_pos (Keyword.stands_isWordChar.mp hstands)
    · obtain ⟨k, hk, hstands⟩ := hexists
      exact absurd hstands (hnone k hk)
  · rw [if_neg hreserved] at hword
    have hnone := mt startsWithReserved_iff.mpr hreserved
    refine ⟨?_, fun k hk hstands => ?_, fun _ => ?_⟩
    · rw [identifier_of_some hword]
      exact iff_of_false (by simp) hnone
    · exact absurd ⟨k, hk, hstands⟩ hnone
    · refine ⟨_, _, List.takeWhile_append_dropWhile.symm, fun c hc => List.mem_takeWhile_imp hc, ?_,
        identifier_of_some hword⟩
      exact fun c => head?_dropWhile_isIdentifierChar

/-- At a letter a scanner tells identifiers from reserved phrases, if a letter or a digit behind a phrase
makes it part of a longer word. Where no underscore stands directly behind a reserved phrase, this is the
same as if an underscore did so too. -/
theorem words_told_apart (s : Scanner)
    (hletter : s.skipBlanks.cursor.rest.head?.any isLetter = true) :
    s.TellsWords isWordChar ∧
    ((∀ k ∈ Keyword.reserved, ¬ k.spelling.toList ++ ['_'] <+: s.skipBlanks.cursor.rest) →
      s.TellsWords isIdentifierChar) :=
  ⟨tellsWords_isWordChar hletter, fun hunderscore =>
    (tellsWords_isWordChar hletter).congr fun k hk => Keyword.stands_congr (hunderscore k hk)⟩

/-- The word `chopper` only begins like a phrase, and `Pick` is one. -/
theorem words_told_apart_chopper :
    ((ofSource "" " chopper").skipBlanks.cursor.rest.head?.any isLetter = true ∧
      (ofSource "" " chopper").TellsWords isIdentifierChar ∧
      (ofSource "" " chopper").identifier.1 ≠ none) ∧
    (ofSource "" "Pick(x)").skipBlanks.cursor.rest.head?.any isLetter = true ∧
      (ofSource "" "Pick(x)").TellsWords isIdentifierChar ∧
      (ofSource "" "Pick(x)").identifier.1 = none := by
  have hletter : (ofSource "" " chopper").skipBlanks.cursor.rest.head?.any isLetter = true := by
    decide +kernel
  have hletter' : (ofSource "" "Pick(x)").skipBlanks.cursor.rest.head?.any isLetter = true := by
    decide +kernel
  exact ⟨⟨hletter, (words_told_apart _ hletter).2 (by decide +kernel), by decide +kernel⟩,
    hletter', (words_told_apart _ hletter').2 (by decide +kernel), by decide +kernel⟩

/-- In front of an underscore a reserved phrase still counts as a whole word: no identifier is read from
`chop_x`, although no phrase is a whole word there. -/
theorem words_not_told_apart :
    (ofSource "" "chop_x").skipBlanks.cursor.rest.head?.any isLetter = true ∧
    ¬ (ofSource "" "chop_x").TellsWords isIdentifierChar ∧
    (ofSource "" "chop_x").identifier.1 = none ∧ ((ofSource "" "chop_x").keyword Keyword.chop).1 = true := by
  have hnone : (ofSource "" "chop_x").identifier.1 = none := by decide +kernel
  refine ⟨by decide +kernel, fun htells => ?_, hnone, by decide +kernel⟩
  obtain ⟨k, hk, hstands⟩ := htells.refuses.mp hnone
  have hphrases : ∀ k ∈ Keyword.reserved,
      ¬ k.Stands isIdentifierChar (ofSource "" "chop_x").skipBlanks.cursor.rest := by decide +kernel
  exact hphrases k hk hstands

end Scanner

end LemonScript
