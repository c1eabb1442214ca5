import Mathlib
import LemonScript.Proofs.Token.Scanner
/-!
# How string literals are read

A literal may spell a text in several ways, so what it spells is a relation between its characters and
the text. Whatever stands behind an opening quote begins with a run of plain characters and escapes;
behind that stands the closing quote, or nothing, or a backslash that begins no escape, and these are
the three ways in which the reading of a literal ends. So a scanner at a quote reads exactly the
literals, and stays at the quote if there is none.
-/

namespace LemonScript

def shortEscapes : List (Char × Char) := [('n', '\n'), ('\'', '\''), ('"', '"'), ('\\', '\\')]

/-- What stands between the quotes of a literal, and the text that it spells. -/
inductive Quotes : List Char → List Char → Prop
  | nil : Quotes [] []
  | plain {c : Char} {body text : List Char} (hquote : c ≠ '"') (hslash : c ≠ '\\')
      (h : Quotes body text) : Quotes (c :: body) (c :: text)
  | short {c value : Char} {body text : List Char} (hescape : (c, value) ∈ shortEscapes)
      (h : Quotes body text) : Quotes ('\\' :: c :: body) (value :: text)
  | code {digits body text : List Char} (hne : digits ≠ []) (hlength : digits.length ≤ 6)
      (hdigits : ∀ d ∈ digits, isHexDigit d) (hvalid : (hexNumber digits).isValidChar)
      (h : Quotes body text) :
      Quotes ('\\' :: 'u' :: '\x7b' :: digits ++ '\x7d' :: body)
        (Char.ofNat (hexNumber digits) :: text)

/-! ### Escapes -/

variable {c : Char} {cs escape : List Char}

theorem escape?_short {value : Char} (h : (c, value) ∈ shortEscapes) (cs : List Char) :
    escape? (c :: cs) = some (value, 1) := by
  simp only [shortEscapes, List.mem_cons, Prod.mk.injEq, List.not_mem_nil, or_false] at h
  rcases h with ⟨rfl, rfl⟩ | ⟨rfl, rfl⟩ | ⟨rfl, rfl⟩ | ⟨rfl, rfl⟩ <;> rfl

theorem escape?_code {digits : List Char} (hne : digits ≠ []) (hlength : digits.length ≤ 6)
    (hdigits : ∀ d ∈ digits, isHexDigit d) (hvalid : (hexNumber digits).isValidChar)
    (cs : List Char) : escape? ('u' :: '\x7b' :: digits ++ '\x7d' :: cs) =
      some (Char.ofNat (hexNumber digits), digits.length + 3) := by
  have htake : ((digits ++ '\x7d' :: cs).take 6).takeWhile isHexDigit = digits := by
    rw [List.take_append, List.take_of_length_le hlength, List.takeWhile_append_of_pos hdigits]
    cases 6 - digits.length with
    | zero => simp
    | succ n => simp [show isHexDigit '\x7d' = false by decide]
  simp [escape?, htake, hne, hvalid]

namespace Quotes

variable {body body' text text' : List Char}

theorem append (h : Quotes body text) (h' : Quotes body' text') :
    Quotes (body ++ body') (text ++ text') := by
  induction h with
  | nil => exact h'
  | plain hquote hslash h ih => exact .plain hquote hslash ih
  | short hescape h ih => exact .short hescape ih
  | code hne hlength hdigits hvalid h ih => simpa using Quotes.code hne hlength hdigits hvalid ih

theorem eq_nil (h : Quotes body []) : body = [] := by
  cases h
  rfl

theorem of_escape? {n : Nat} (h : escape? cs = some (c, n)) :
    ∃ escape rest, cs = escape ++ rest ∧ escape.length = n ∧ Quotes ('\\' :: escape) [c] := by
  have hshort : ∀ {d : Char} {rest : List Char}, (d, c) ∈ shortEscapes → n = 1 →
      ∃ escape rest', d :: rest = escape ++ rest' ∧ escape.length = n ∧ Quotes ('\\' :: escape) [c] := by
    rintro d rest hd rfl
    exact ⟨[d], rest, rfl, rfl, .short hd .nil⟩
  unfold escape? at h
  split at h
  · cases h
    exact hshort (by decide) rfl
  · cases h
    exact hshort (by decide) rfl
  · cases h
    exact hshort (by decide) rfl
  · cases h
    exact hshort (by decide) rfl
  · next rest =>
    dsimp only at h
    generalize hdigits : (rest.take 6).takeWhile isHexDigit = digits at h
    have hprefix : digits <+: rest :=
      hdigits ▸ (List.takeWhile_prefix isHexDigit).trans (List.take_prefix 6 rest)
    obtain ⟨behind, rfl⟩ := hprefix
    have hlength : digits.length ≤ 6 := by
      rw [← hdigits]
      exact (List.takeWhile_prefix isHexDigit).length_le.trans (List.length_take_le 6 _)
    have hhex : ∀ d ∈ digits, isHexDigit d := by
      rw [← hdigits]
      exact fun d hd => List.mem_takeWhile_imp hd
    split at h
    · cases h
    · next hclosed =>
      simp only [Bool.or_eq_true, List.isEmpty_iff, List.drop_left, bne_iff_ne, ne_eq, not_or,
        not_not] at hclosed
      obtain ⟨behind, rfl⟩ := List.head?_eq_some_iff.mp hclosed.2
      split at h
      · next hvalid =>
        cases h
        refine ⟨'u' :: '\x7b' :: digits ++ ['\x7d'], behind, by simp, by simp, ?_⟩
        exact .code hclosed.1 hlength hhex hvalid .nil
      · cases h
  · cases h

theorem escape?_eq (h : Quotes ('\\' :: escape) [c]) (cs : List Char) :
    escape? (escape ++ cs) = some (c, escape.length) := by
  generalize hbody : '\\' :: escape = body at h
  generalize htext : [c] = text at h
  cases h with
  | nil => cases htext
  | plain _ hslash =>
    cases hbody
    exact absurd rfl hslash
  | short hescape h =>
    cases hbody
    cases htext
    rw [h.eq_nil]
    exact escape?_short hescape cs
  | code hne hlength hdigits hvalid h =>
    cases htext
    rw [h.eq_nil] at hbody
    cases hbody
    simpa using escape?_code hne hlength hdigits hvalid cs

theorem escape?_eq_none_iff :
    escape? cs = none ↔ ∀ item c rest, Quotes item [c] → '\\' :: cs ≠ item ++ rest := by
  constructor
  · intro hnone item c rest hitem hcs
    cases item with
    | nil => cases hitem
    | cons d escape =>
      obtain ⟨rfl, hrest⟩ := List.cons.inj hcs
      have hescape := hitem.escape?_eq rest
      rw [← show cs = escape ++ rest from hrest, hnone] at hescape
      cases hescape
  · intro h
    cases hescape : escape? cs with
    | none => rfl
    | some =>
      obtain ⟨escape, rest, rfl, -, hitem⟩ := of_escape? hescape
      exact absurd rfl (h _ _ rest hitem)

end Quotes

/-! ### Items in front -/

namespace StringLexeme

/-- Some items that spell a text were read in front. -/
def behind (items text : List Char) : StringLexeme → StringLexeme
  | closed value length => closed (text ++ value) (items.length + length)
  | unclosed length => unclosed (items.length + length)
  | badEscape length => badEscape (items.length + length)

theorem skip_behind (c : Char) (items text : List Char) (x : StringLexeme) :
    (x.behind items text).skip = x.behind (c :: items) text := by
  cases x <;> simp only [behind, skip, List.length_cons, Nat.add_right_comm]

theorem cons_behind (c value : Char) (items text : List Char) (x : StringLexeme) :
    (x.behind items text).cons value = x.behind (c :: items) (value :: text) := by
  cases x <;> simp only [behind, cons, List.length_cons, Nat.add_right_comm, List.cons_append]

theorem behind_append (items items' text text' : List Char) (x : StringLexeme) :
    x.behind (items ++ items') (text ++ text') = (x.behind items' text').behind items text := by
  cases x <;> simp only [behind, List.length_append, Nat.add_assoc, List.append_assoc]

end StringLexeme

open StringLexeme

theorem stringBody_pending (pending cs : List Char) :
    stringBody pending.length (pending ++ cs) = (stringBody 0 cs).behind pending [] := by
  induction pending with
  | nil => cases h : stringBody 0 cs <;> simp [behind, h]
  | cons _ _ ih => rw [List.length_cons, List.cons_append, stringBody, ih, skip_behind]

theorem stringBody_escape (h : escape? (escape ++ cs) = some (c, escape.length)) :
    stringBody 0 ('\\' :: (escape ++ cs)) = (stringBody 0 cs).behind ('\\' :: escape) [c] := by
  have hbody : stringBody 0 ('\\' :: (escape ++ cs)) =
      (stringBody escape.length (escape ++ cs)).cons c := by
    rw [stringBody]
    simp [h]
  rw [hbody, stringBody_pending, cons_behind]

theorem stringBody_append {items text : List Char} (h : Quotes items text) (cs : List Char) :
    stringBody 0 (items ++ cs) = (stringBody 0 cs).behind items text := by
  induction h with
  | nil => cases h : stringBody 0 cs <;> simp [behind, h]
  | plain hquote hslash h ih =>
    rw [List.cons_append, stringBody]
    simp only [beq_iff_eq, hquote, hslash, if_false]
    rw [ih, cons_behind]
  | @short c value body text hescape h ih =>
    have hread : stringBody 0 ('\\' :: ([c] ++ (body ++ cs))) = _ :=
      stringBody_escape (escape?_short hescape (body ++ cs))
    rw [ih, ← behind_append] at hread
    exact hread
  | @code digits body text hne hlength hdigits hvalid h ih =>
    have hread : stringBody 0 ('\\' :: (('u' :: '\x7b' :: digits ++ ['\x7d']) ++ (body ++ cs))) = _ :=
      stringBody_escape (by simpa using escape?_code hne hlength hdigits hvalid (body ++ cs))
    rw [ih, ← behind_append] at hread
    simpa using hread

/-- What may stand behind the items of a literal: nothing, a quote, or a backslash that begins no
escape. -/
inductive ItemsEnd : List Char → Prop
  | nothing : ItemsEnd []
  | quote (rest : List Char) : ItemsEnd ('"' :: rest)
  | badEscape {rest : List Char} (h : escape? rest = none) : ItemsEnd ('\\' :: rest)

theorem exists_items (cs : List Char) :
    ∃ items text rest, cs = items ++ rest ∧ Quotes items text ∧ ItemsEnd rest := by
  induction hn : cs.length using Nat.strong_induction_on generalizing cs with
  | _ n ih =>
    -- an item in front of a shorter text
    have hitem : ∀ {item value : List Char} (rest : List Char), Quotes item value → cs = item ++ rest →
        item ≠ [] → ∃ items text rest, cs = items ++ rest ∧ Quotes items text ∧ ItemsEnd rest := by
      rintro item value rest hitem rfl hne
      have hpos : 0 < item.length := List.length_pos_iff.mpr hne
      rw [List.length_append] at hn
      obtain ⟨items, text, rest', rfl, hitems, hend⟩ := ih rest.length (by omega) rest rfl
      exact ⟨item ++ items, value ++ text, rest', by simp, hitem.append hitems, hend⟩
    cases cs with
    | nil => exact ⟨[], [], [], rfl, .nil, .nothing⟩
    | cons c cs =>
      by_cases hquote : c = '"'
      · subst hquote
        exact ⟨[], [], _, rfl, .nil, .quote cs⟩
      by_cases hslash : c = '\\'
      · subst hslash
        cases hescape : escape? cs with
        | none => exact ⟨[], [], _, rfl, .nil, .badEscape hescape⟩
        | some =>
          obtain ⟨escape, rest, rfl, -, hq⟩ := Quotes.of_escape? hescape
          exact hitem rest hq rfl (by simp)
      · exact hitem cs (.plain hquote hslash .nil) rfl (by simp)

/-! ### The scanner -/

theorem Cursor.skipBlanks_of_quote {c : Cursor} {ahead : List Char} (h : c.rest = '"' :: ahead) :
    c.skipBlanks = c := by
  obtain ⟨offset, rest⟩ := c
  obtain rfl : rest = '"' :: ahead := h
  have hcomment : commentLength? ('"' :: ahead) = none := by
    simp [commentLength?, commentStart, List.isPrefixOf]
  simp [Cursor.skipBlanks, Cursor.passBlanks, hcomment, show isBlank '"' = false by decide]

namespace Scanner

variable {s : Scanner} {items text rest : List Char}

theorem string_of_closed (hquotes : Quotes items text)
    (h : s.skipBlanks.cursor.rest = '"' :: (items ++ '"' :: rest)) :
    s.string = (some ⟨.string, String.ofList text, s.skipBlanks.offset,
        s.skipBlanks.offset + (items.length + 2)⟩, s.skipBlanks.advance (items.length + 2)) := by
  have hbody : stringBody 0 (items ++ '"' :: rest) = .closed text (items.length + 1) := by
    rw [stringBody_append hquotes]
    simp [stringBody, behind]
  simp only [string, h, hbody]
  rfl

theorem string_of_unclosed (hquotes : Quotes items text) (h : s.skipBlanks.cursor.rest = '"' :: items) :
    s.string = (none, s.skipBlanks.failAt (s.skipBlanks.offset + 1 + items.length) "closing \"") := by
  have hbody : stringBody 0 items = .unclosed items.length := by
    have hend := stringBody_append hquotes []
    rwa [List.append_nil] at hend
  simp only [string, h, hbody]

theorem string_of_badEscape (hquotes : Quotes items text)
    (h : s.skipBlanks.cursor.rest = '"' :: (items ++ '\\' :: rest)) (hescape : escape? rest = none) :
    s.string = (none, s.skipBlanks.failAt (s.skipBlanks.offset + 1 + items.length) "escape sequence") := by
  have hbody : stringBody 0 (items ++ '\\' :: rest) = .badEscape items.length := by
    rw [stringBody_append hquotes]
    simp [stringBody, behind, hescape]
  simp only [string, h, hbody]

theorem string_of_unopened (h : s.skipBlanks.cursor.rest.head? ≠ some '"') :
    s.string = (none, s.skipBlanks.failAt s.skipBlanks.offset "string") := by
  unfold Scanner.string
  dsimp only
  split
  · next body hbody =>
    rw [hbody] at h
    exact absurd rfl h
  · rfl

theorem string_cases (s : Scanner) :
    (∃ items text rest, s.skipBlanks.cursor.rest = '"' :: (items ++ '"' :: rest) ∧ Quotes items text) ∨
      s.string.1 = none ∧ ∃ offset wanted, s.string.2 = s.skipBlanks.failAt offset wanted := by
  by_cases hquote : s.skipBlanks.cursor.rest.head? = some '"'
  · obtain ⟨ahead, h⟩ := List.head?_eq_some_iff.mp hquote
    obtain ⟨items, text, rest, rfl, hquotes, hend⟩ := exists_items ahead
    cases hend with
    | quote rest => exact .inl ⟨items, text, rest, h, hquotes⟩
    | nothing =>
      rw [List.append_nil] at h
      rw [string_of_unclosed hquotes h]
      exact .inr ⟨rfl, _, _, rfl⟩
    | badEscape hescape =>
      rw [string_of_badEscape hquotes h hescape]
      exact .inr ⟨rfl, _, _, rfl⟩
  · rw [string_of_unopened hquote]
    exact .inr ⟨rfl, _, _, rfl⟩

theorem Reads.string {source : List Char} (h : s.Reads source) :
    Answers source s (s.string.1.isSome = true) s.string.2 := by
  rcases s.string_cases with ⟨items, text, rest, hrest, hquotes⟩ | ⟨hnone, offset, wanted, heq⟩
  · rw [string_of_closed hquotes hrest]
    refine h.answers_advance ?_ (Nat.succ_pos _)
    rw [hrest, List.length_cons, List.length_append, List.length_cons]
    omega
  · rw [heq]
    exact h.answers_fail (by rw [hnone]; simp) _ _

end Scanner

/-- What stands between the quotes of the literal for a text that escapes only quotes and
backslashes. -/
def quoteItems (text : List Char) : List Char :=
  text.flatMap fun c => if c = '"' ∨ c = '\\' then ['\\', c] else [c]

theorem quotes_quoteItems (text : List Char) : Quotes (quoteItems text) text := by
  induction text with
  | nil => exact .nil
  | cons c text ih =>
    have hitem : Quotes (if c = '"' ∨ c = '\\' then ['\\', c] else [c]) [c] := by
      split
      · next hescaped =>
        rcases hescaped with rfl | rfl
        · exact .short (by decide) .nil
        · exact .short (by decide) .nil
      · next hplain =>
        rw [not_or] at hplain
        exact .plain hplain.1 hplain.2 .nil
    exact hitem.append ih

/-- A scanner at a quote reads a string literal if there is one, and only then. The token carries the
text that the items of the literal spell, and the scanner stands right behind the closing quote; if there
is no literal, it still stands at the opening one. So every text is read back from the literal that
escapes only its quotes and backslashes. -/
theorem Scanner.string_exact (s : Scanner) (ahead : List Char) (hquote : s.cursor.rest = '"' :: ahead) :
    (s.string.1.isSome = true ↔
      ∃ items text rest, ahead = items ++ '"' :: rest ∧ Quotes items text) ∧
    (∀ items text rest, ahead = items ++ '"' :: rest → Quotes items text →
      s.string = (some ⟨.string, String.ofList text, s.offset, s.offset + (items.length + 2)⟩,
        s.reset ⟨s.offset + (items.length + 2), rest⟩)) ∧
    (s.string.1 = none → s.string.2.cursor = s.cursor) ∧
    ∀ (text : String) (rest : List Char), ahead = quoteItems text.toList ++ '"' :: rest →
      s.string = (some ⟨.string, text, s.offset, s.offset + ((quoteItems text.toList).length + 2)⟩,
        s.reset ⟨s.offset + ((quoteItems text.toList).length + 2), rest⟩) := by
  have hskip : s.skipBlanks = s := congrArg s.reset (Cursor.skipBlanks_of_quote hquote)
  have hclosed : ∀ items text rest, ahead = items ++ '"' :: rest → Quotes items text →
      s.string = (some ⟨.string, String.ofList text, s.offset, s.offset + (items.length + 2)⟩,
        s.reset ⟨s.offset + (items.length + 2), rest⟩) := by
    rintro items text rest rfl hquotes
    have hplace : s.cursor.advance (items.length + 2) = ⟨s.offset + (items.length + 2), rest⟩ := by
      simp [Cursor.advance, hquote, Scanner.offset, List.drop_append]
    have hread := string_of_closed hquotes (hskip.symm ▸ hquote)
    rw [hskip, advance, hplace] at hread
    exact hread
  have hcases := s.string_cases
  simp only [hskip, hquote, List.cons.injEq, true_and] at hcases
  refine ⟨⟨fun hsome => ?_, ?_⟩, hclosed, fun hnone => ?_, fun text rest hahead => ?_⟩
  · rcases hcases with hliteral | ⟨hnone, -⟩
    · exact hliteral
    · rw [hnone] at hsome
      cases hsome
  · rintro ⟨items, text, rest, hahead, hquotes⟩
    rw [hclosed items text rest hahead hquotes]
    rfl
  · rcases hcases with ⟨items, text, rest, hahead, hquotes⟩ | ⟨-, offset, wanted, heq⟩
    · rw [hclosed items text rest hahead hquotes] at hnone
      cases hnone
    · rw [heq, cursor_failAt]
  · have hread := hclosed _ text.toList rest hahead (quotes_quoteItems text.toList)
    rwa [String.ofList_toList] at hread

/-- A literal with escapes inside a source is read up to its closing quote, one with an unknown escape is
not read at all, and a quote and a backslash are read back. -/
theorem Scanner.string_exact_lemon :
    ((ofSource "" "x \"a\\u\x7b1F34B\x7d\\n\"7").goTo 2).string =
      (some ⟨.string, "a🍋\n", 2, 16⟩, (ofSource "" "x \"a\\u\x7b1F34B\x7d\\n\"7").goTo 16) ∧
    ((ofSource "" "\"a\\q\"").string.1 = none ∧
      (ofSource "" "\"a\\q\"").string.2.cursor = (ofSource "" "\"a\\q\"").cursor) ∧
    (ofSource "" "\"\\\"\\\\\"").string.1 = some ⟨.string, "\"\\", 0, 6⟩ := by
  have hnumber : hexNumber ['1', 'F', '3', '4', 'B'] = 0x1F34B := by decide
  have hitems : Quotes ('a' :: '\\' :: 'u' :: '\x7b' :: ['1', 'F', '3', '4', 'B'] ++ '\x7d' :: ['\\', 'n'])
      ['a', Char.ofNat (hexNumber ['1', 'F', '3', '4', 'B']), '\n'] := by
    refine .plain (by decide) (by decide) ?_
    refine .code (by decide) (by decide) (List.all_eq_true.mp (by decide)) ?_ ?_
    · rw [hnumber]
      decide
    · exact .short (by decide) .nil
  rw [hnumber] at hitems
  have hlemon := string_exact ((ofSource "" "x \"a\\u\x7b1F34B\x7d\\n\"7").goTo 2)
    "a\\u\x7b1F34B\x7d\\n\"7".toList (by decide +kernel)
  have hunknown := string_exact (ofSource "" "\"a\\q\"") "a\\q\"".toList (by decide +kernel)
  have hnone : (ofSource "" "\"a\\q\"").string.1 = none := by decide +kernel
  have hquoted := string_exact (ofSource "" "\"\\\"\\\\\"") "\\\"\\\\\"".toList (by decide +kernel)
  refine ⟨?_, ⟨hnone, hunknown.2.2.1 hnone⟩, ?_⟩
  · exact hlemon.2.1 _ _ ['7'] (by decide +kernel) hitems
  · rw [hquoted.2.2.2 "\"\\" [] (by decide +kernel)]
    rfl

end LemonScript
