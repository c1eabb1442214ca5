import LemonScript.Proofs.Grammar.Memory
import LemonScript.Proofs.Grammar.Parallel
/-!
# Comments

Blanks and comments are passed before every token, so two places are read alike if the same is ahead of
them behind the blanks. A comment before a source therefore makes no difference to what is read, apart
from what it hides. It hides its own line, if nothing closes it. But a comment is closed by the first
`(* )` behind it, however far away and even if it stands in a string, and then it hides all that is
before.
-/

namespace LemonScript

open Rule

/-! ### Behind the blanks -/

/-- What is ahead behind the blanks and comments at the start of a text. -/
def beyondBlanks (text : List Char) : List Char := (Cursor.passBlanks 0 0 text).rest

variable {text hidden : List Char}

theorem Cursor.rest_passBlanks (pending offset : Nat) (text : List Char) :
    (passBlanks pending offset text).rest = beyondBlanks (text.drop pending) := by
  -- the offset is only counted, so a walk from any other offset ends at the same rest
  suffices h : ∀ offset', (passBlanks pending offset text).rest =
      (passBlanks 0 offset' (text.drop pending)).rest from h 0
  induction text generalizing pending offset with
  | nil =>
    intro offset'
    rw [List.drop_nil]
    rfl
  | cons c cs ih =>
    intro offset'
    cases pending with
    | succ n => exact ih n (offset + 1) offset'
    | zero =>
      simp only [List.drop_zero, passBlanks]
      split
      · exact ih 0 (offset + 1) (offset' + 1)
      · split
        · next n _ => exact (ih (n - 1) (offset + 1) 0).trans (ih (n - 1) (offset' + 1) 0).symm
        · rfl

theorem Cursor.rest_skipBlanks (c : Cursor) : c.skipBlanks.rest = beyondBlanks c.rest :=
  rest_passBlanks 0 c.offset c.rest

theorem beyondBlanks_blank {c : Char} (hc : isBlank c = true) (text : List Char) :
    beyondBlanks (c :: text) = beyondBlanks text := by
  rw [beyondBlanks, Cursor.passBlanks, if_pos hc, Cursor.rest_passBlanks, List.drop_zero]

/-- How much a comment hides of the text behind its start. -/
def hiddenLength (body : List Char) : Nat :=
  match distance? commentEnd body with
  | some n => n + commentEnd.length
  | none => (body.takeWhile (· != '\n')).length

theorem commentLength?_commentStart (body : List Char) :
    commentLength? (commentStart ++ body) = some (hiddenLength body + 4) := by
  unfold commentLength?
  rw [if_pos (by simp), List.drop_left, Nat.add_comm]
  rfl

theorem beyondBlanks_comment (body : List Char) :
    beyondBlanks (commentStart ++ body) = beyondBlanks (body.drop (hiddenLength body)) := by
  have hlength := commentLength?_commentStart body
  simp only [commentStart, List.cons_append, List.nil_append] at hlength ⊢
  rw [beyondBlanks, Cursor.passBlanks, if_neg (by decide), hlength]
  exact Cursor.rest_passBlanks (hiddenLength body + 3) 1 _

/-! ### Where a comment is closed -/

/-- A text that does not occur in the first part does not occur across both parts either, if the second
part begins with a character that the text has at most in front. -/
theorem not_prefix_append {d : Char} (hd : d ∉ text.tail) (hhidden : hidden ≠ [])
    (h : ¬ text <+: hidden) (rest : List Char) : ¬ text <+: hidden ++ d :: rest := by
  intro hprefix
  rcases List.prefix_or_prefix_of_prefix hprefix (List.prefix_append hidden (d :: rest)) with hle | hle
  · exact h hle
  · obtain ⟨more, rfl⟩ := hle
    rw [List.prefix_append_right_inj] at hprefix
    cases more with
    | nil => exact h (by simp)
    | cons e =>
      obtain rfl : e = d := (List.cons_prefix_cons.1 hprefix).1
      obtain ⟨c, cs, rfl⟩ := List.exists_cons_of_ne_nil hhidden
      exact hd (by simp)

theorem distance?_append (h : ¬ text <:+: hidden) {d : Char} (hd : d ∉ text.tail) (rest : List Char) :
    distance? text (hidden ++ d :: rest) = (distance? text (d :: rest)).map (· + hidden.length) := by
  induction hidden with
  | nil => simp
  | cons c cs ih =>
    have hstart : ¬ text <+: c :: cs := fun hprefix => h hprefix.isInfix
    have hacross := not_prefix_append hd (List.cons_ne_nil c cs) hstart rest
    have hbehind : ¬ text <:+: cs := fun hin => h (hin.trans (List.suffix_cons c cs).isInfix)
    rw [List.cons_append, distance?, if_neg (by simpa using hacross), ih hbehind, Option.map_map]
    rfl

theorem distance?_eq_none (htext : text ≠ []) {rest : List Char} (h : ¬ text <:+: rest) :
    distance? text rest = none := by
  induction rest with
  | nil => simp [distance?, htext]
  | cons c cs ih =>
    have hstart : ¬ text <+: c :: cs := fun hprefix => h hprefix.isInfix
    have hbehind : ¬ text <:+: cs := fun hin => h (hin.trans (List.suffix_cons c cs).isInfix)
    rw [distance?, if_neg (by simpa using hstart), ih hbehind, Option.map_none]

section Comment

variable {text : List Char} (hline : '\n' ∉ text) (htext : ¬ commentEnd <:+: text)

include htext

theorem distance?_line (rest : List Char) : distance? commentEnd (text ++ '\n' :: rest) =
    (distance? commentEnd rest).map (· + (text.length + 1)) := by
  rw [distance?_append htext (by decide), distance?, if_neg (by simp [commentEnd]), Option.map_map]
  congr 1
  funext n
  simp only [Function.comp_apply]
  omega

include hline

theorem beyondBlanks_line {source : List Char} (hsource : ¬ commentEnd <:+: source) :
    beyondBlanks (commentStart ++ (text ++ '\n' :: source)) = beyondBlanks source := by
  have hnone : distance? commentEnd (text ++ '\n' :: source) = none := by
    rw [distance?_line htext, distance?_eq_none (by decide) hsource, Option.map_none]
  have htake : (text ++ '\n' :: source).takeWhile (· != '\n') = text := by
    rw [List.takeWhile_append_of_pos (by
      intro c hc
      exact bne_iff_ne.2 (ne_of_mem_of_not_mem hc hline))]
    simp
  have hlength : hiddenLength (text ++ '\n' :: source) = text.length := by
    rw [hiddenLength, hnone]
    exact congrArg List.length htake
  rw [beyondBlanks_comment, hlength, List.drop_left, beyondBlanks_blank (by decide)]

omit hline

theorem beyondBlanks_closed (hhidden : ¬ commentEnd <:+: hidden) (rest : List Char) :
    beyondBlanks (commentStart ++ (text ++ '\n' :: (hidden ++ (commentEnd ++ rest)))) =
      beyondBlanks rest := by
  have hclosed : distance? commentEnd (commentEnd ++ rest) = some 0 := by
    simp [commentEnd, distance?]
  have hdistance : distance? commentEnd (hidden ++ (commentEnd ++ rest)) = some hidden.length := by
    have happend := distance?_append hhidden (d := '(') (by decide) (['*', ' ', ')'] ++ rest)
    rw [show '(' :: (['*', ' ', ')'] ++ rest) = commentEnd ++ rest from rfl, hclosed] at happend
    simpa using happend
  have hlength : hiddenLength (text ++ '\n' :: (hidden ++ (commentEnd ++ rest))) =
      (text ++ '\n' :: (hidden ++ commentEnd)).length := by
    rw [hiddenLength, distance?_line htext, hdistance]
    simp only [Option.map_some, List.length_append, List.length_cons]
    omega
  have hassoc : text ++ '\n' :: (hidden ++ (commentEnd ++ rest)) =
      text ++ '\n' :: (hidden ++ commentEnd) ++ rest := by simp
  rw [beyondBlanks_comment, hlength, hassoc, List.drop_left]

end Comment

/-! ### Reading behind the blanks -/

namespace Correspondence

/-- States without a memory before the same text, up to blanks and comments. -/
def beyond : Correspondence where
  State s s' := s.memory = none ∧ s'.memory = none ∧
    beyondBlanks s.cursor.rest = beyondBlanks s'.cursor.rest
  Place c c' := beyondBlanks c.rest = beyondBlanks c'.rest
  cursor hs := hs.2.2
  reset hs hc := ⟨hs.1, hs.2.1, hc⟩
  asked := by
    intro β γ view f s s' hf hs
    have hahead : s.scanner.cursor.skipBlanks.rest = s'.scanner.cursor.skipBlanks.rest := by
      rw [Cursor.rest_skipBlanks, Cursor.rest_skipBlanks]
      exact hs.2.2
    obtain ⟨hview, n, hstop, hstop'⟩ := hf.looksAhead hahead
    refine ⟨hview, hs.1, hs.2.1, ?_⟩
    simp only [ParseState.cursor, hstop, hstop', Cursor.advance, hahead]

end Correspondence

namespace Grammar

open Correspondence

theorem remember_of_none {s : ParseState} (h : s.memory = none) (offset : Nat) (r : Remembered) :
    s.remember offset r = s := by
  unfold ParseState.remember
  rw [h]
  cases s
  simp_all

theorem keep_parallel {o o' : Outcome Node} (h : Outcome.Parallel beyond.State o o')
    (offset offset' : Nat) : Outcome.Parallel beyond.State (keep offset o) (keep offset' o') := by
  cases h with
  | matched node hs =>
    simp only [keep, remember_of_none hs.1, remember_of_none hs.2.1]
    exact .matched node hs
  | failed hs =>
    simp only [keep, remember_of_none hs.1, remember_of_none hs.2.1]
    exact .failed hs
  | aborted reason => exact .aborted reason
  | tooDeep_left => exact .tooDeep_left _
  | tooDeep_right => exact .tooDeep_right _

theorem parallel_reference_beyond {g g' : Rules} (hg : g.Alike beyond.likeness g') :
    beyond.Parallel (reference g) (reference g') := by
  intro s s' hs
  have hnone : s.remembered? s.cursor.offset = none := by
    rw [ParseState.remembered?, hs.1]
    rfl
  have hnone' : s'.remembered? s'.cursor.offset = none := by
    rw [ParseState.remembered?, hs.2.1]
    rfl
  rw [reference_of_none hnone, reference_of_none hnone']
  exact keep_parallel ((alike_accessors hg).rewinding s s' hs) _ _

end Grammar

theorem Outcome.Parallel.toOption_result {S : ParseState → ParseState → Prop} {o o' : Outcome Program}
    (h : Outcome.Parallel S o o') (ho : o ≠ .aborted .tooDeep) (ho' : o' ≠ .aborted .tooDeep) :
    o.result.toOption = o'.result.toOption := by
  cases h with
  | matched | failed | aborted => rfl
  | tooDeep_left => exact absurd rfl ho
  | tooDeep_right => exact absurd rfl ho'

open Grammar Correspondence in
theorem Program.toOption_parse_congr {filename source source' : String}
    (h : beyondBlanks source.toList = beyondBlanks source'.toList) :
    (Program.parse filename source).toOption = (Program.parse filename source').toOption := by
  have hreads := Scanner.reads_ofSource filename source
  have hreads' := Scanner.reads_ofSource filename source'
  have halike : (rules (source.toList.length + 2) (source.toList.length + 2)).Alike beyond.likeness
      (rules (source'.toList.length + 2) (source'.toList.length + 2)) :=
    alike_rules (fun hg levels => parallel_reference_beyond (hg levels)) _ _
  have hparallel := alike_program halike ⟨Scanner.ofSource filename source, none⟩
    ⟨Scanner.ofSource filename source', none⟩ ⟨rfl, rfl, h⟩
  have hresult := hparallel.toOption_result (program_ne_tooDeep (sound_afresh hreads) (by omega))
    (program_ne_tooDeep (sound_afresh hreads') (by omega))
  -- what is remembered makes no difference, so the runs that look afresh are compared
  rw [Program.parse, Program.parse,
    parseFrom_eq_afresh (ParseState.faithful_ofSource filename source _)
      (ParseState.sound_ofSource filename source),
    parseFrom_eq_afresh (ParseState.faithful_ofSource filename source' _)
      (ParseState.sound_ofSource filename source'),
    parseFrom_eq_result, parseFrom_eq_result]
  exact hresult

/-! ### Comments before a source -/

/-- A comment before a source hides its own line, if the source does not close it; the program is then
that of the source. If the source has a `(* )`, the comment runs to the first one, and the program is
that of the text behind. -/
theorem Program.parse_comment (filename text source : String) (hline : '\n' ∉ text.toList)
    (htext : ¬ commentEnd <:+: text.toList) :
    (¬ commentEnd <:+: source.toList →
      (Program.parse filename ("( *)" ++ text ++ "\n" ++ source)).toOption =
        (Program.parse filename source).toOption) ∧
    ∀ hidden rest : String, source = hidden ++ "(* )" ++ rest → ¬ commentEnd <:+: hidden.toList →
      (Program.parse filename ("( *)" ++ text ++ "\n" ++ source)).toOption =
        (Program.parse filename rest).toOption := by
  have hlist : ("( *)" ++ text ++ "\n" ++ source).toList =
      commentStart ++ (text.toList ++ '\n' :: source.toList) := by
    simp [commentStart]
  refine ⟨fun hsource => ?_, fun hidden rest heq hhidden => ?_⟩
  · refine Program.toOption_parse_congr ?_
    rw [hlist]
    exact beyondBlanks_line hline htext hsource
  · have hclosed : source.toList = hidden.toList ++ (commentEnd ++ rest.toList) := by
      rw [heq]
      simp [commentEnd]
    refine Program.toOption_parse_congr ?_
    rw [hlist, hclosed]
    exact beyondBlanks_closed htext hhidden rest.toList

/-- A note before a declaration, and a note before two declarations with a long comment between them. -/
theorem Program.parse_comment_note :
    (Program.parse "" ("( *)" ++ " note" ++ "\n" ++ "slice x = 1")).toOption =
      (Program.parse "" "slice x = 1").toOption ∧
    (Program.parse "" "slice x = 1").toOption.isSome = true ∧
    (Program.parse "" ("( *)" ++ " note" ++ "\n" ++ "slice x = 1 ( *) c (* ) slice y = 2")).toOption =
      (Program.parse "" " slice y = 2").toOption := by
  have hline : '\n' ∉ " note".toList := by decide
  have htext : ¬ commentEnd <:+: " note".toList := by decide
  refine ⟨?_, by decide +kernel, ?_⟩
  · exact (Program.parse_comment "" " note" "slice x = 1" hline htext).1 (by decide)
  · exact (Program.parse_comment "" " note" "slice x = 1 ( *) c (* ) slice y = 2" hline htext).2
      "slice x = 1 ( *) c " " slice y = 2" rfl (by decide)

/-- A note of one line before two declarations with a long comment between them hides the first
declaration. -/
theorem Program.parse_comment_hides :
    '\n' ∉ " note".toList ∧ ¬ commentEnd <:+: " note".toList ∧
    (Program.parse "" "slice x = 1 ( *) c (* ) slice y = 2").toOption.isSome = true ∧
    (Program.parse "" ("( *)" ++ " note" ++ "\n" ++ "slice x = 1 ( *) c (* ) slice y = 2")).toOption ≠
      (Program.parse "" "slice x = 1 ( *) c (* ) slice y = 2").toOption := by
  refine ⟨by decide, by decide, by decide +kernel, fun hsame => ?_⟩
  have hcounts := congrArg (Option.map fun p => p.statements.map List.length) hsame
  revert hcounts
  decide +kernel

end LemonScript
