import Mathlib
import LemonScript.Token.Scanner
/-!
# Where an offset is

The line starts are collected character by character. At each moment they divide the offsets of the
characters seen so far as newlines do, and so halving the list of starts finds the line of an offset:
one more than there are newlines before it. Positions tell offsets of a source apart and keep their
order.
-/

namespace LemonScript

/-! ### Halving -/

variable {more source before : List Char}

/-- Halving finds the number at which a test begins to succeed. -/
theorem bisect_eq {test : Nat → Bool} {low high n : Nat} (hlow : low ≤ n) (hhigh : n ≤ high)
    (htest : ∀ i, low ≤ i → i < high → (test i = true ↔ n ≤ i)) : bisect test low high = n := by
  fun_induction bisect test low high with
  | case1 low high hlt middle hholds ih =>
    have hmiddle : n ≤ middle := (htest middle (by omega) (by omega)).mp hholds
    exact ih hlow hmiddle fun i hi hi' => htest i hi (by omega)
  | case2 low high hlt middle hfails ih =>
    have hmiddle : middle < n := by
      by_contra hle
      exact hfails ((htest middle (by omega) (by omega)).mpr (by omega))
    exact ih hmiddle hhigh fun i hi hi' => htest i (by omega) hi'
  | case3 low high hle => omega

/-! ### Line starts -/

def lastLine (text : List Char) : List Char := (text.reverse.takeWhile (· != '\n')).reverse

theorem lastLine_append_newline (text : List Char) : lastLine (text ++ ['\n']) = [] := by
  simp [lastLine]

theorem lastLine_append_of_not_mem (h : '\n' ∉ more) (text : List Char) :
    lastLine (text ++ more) = lastLine text ++ more := by
  have hmore : ∀ c ∈ more.reverse, (c != '\n') = true := by
    intro c hc
    exact bne_iff_ne.mpr fun heq => h (heq ▸ List.mem_reverse.mp hc)
  rw [lastLine, List.reverse_append, List.takeWhile_append_of_pos hmore, List.reverse_append,
    List.reverse_reverse, lastLine]

/-- The starts are those of the lines of a text. Before each of its places as many lines begin as there
are newlines, and one more, and the last of them begins behind the last newline. -/
structure LineStarts (starts : Array Nat) (text : List Char) : Prop where
  size_eq : starts.size = text.count '\n' + 1
  begins : ∀ before, before <+: text → ∀ j start, starts[j]? = some start →
    (start ≤ before.length ↔ j ≤ before.count '\n')
  last : ∀ before, before <+: text → ∃ start, starts[before.count '\n']? = some start ∧
    start + (lastLine before).length = before.length

namespace LineStarts

variable {starts : Array Nat} {text : List Char}

theorem nil : LineStarts #[0] [] where
  size_eq := rfl
  begins before hbefore j start hstart := by
    obtain rfl := List.prefix_nil.mp hbefore
    obtain rfl : j = 0 := by simpa using (Array.getElem?_eq_some_iff.mp hstart).1
    obtain rfl : 0 = start := by simpa using hstart
    simp
  last before hbefore := by
    obtain rfl := List.prefix_nil.mp hbefore
    exact ⟨0, rfl, rfl⟩

theorem le_length (h : LineStarts starts text) {j start : Nat} (hstart : starts[j]? = some start) :
    j ≤ text.count '\n' ∧ start ≤ text.length := by
  have hj : j < starts.size := (Array.getElem?_eq_some_iff.mp hstart).1
  have hcount : j ≤ text.count '\n' := by
    have := h.size_eq
    omega
  exact ⟨hcount, (h.begins text List.prefix_rfl j start hstart).mpr hcount⟩

theorem push_newline (h : LineStarts starts text) :
    LineStarts (starts.push (text.length + 1)) (text ++ ['\n']) := by
  have hsize := h.size_eq
  refine ⟨by simp [hsize], fun before hbefore j start hstart => ?_, fun before hbefore => ?_⟩
  · rw [Array.getElem?_push] at hstart
    rcases List.prefix_concat_iff.mp hbefore with rfl | hbefore
    · -- all starts are in the text, the new one is at its end
      simp only [List.length_append, List.length_singleton, List.count_append, List.count_singleton_self]
      split at hstart
      · cases hstart
        omega
      · have := h.le_length hstart
        omega
    · split at hstart
      · cases hstart
        have hlength := hbefore.length_le
        have hcount := hbefore.sublist.count_le '\n'
        omega
      · exact h.begins before hbefore j start hstart
  · rw [Array.getElem?_push]
    rcases List.prefix_concat_iff.mp hbefore with rfl | hbefore
    · refine ⟨text.length + 1, ?_, ?_⟩
      · simp [hsize]
      · simp [lastLine_append_newline]
    · have hcount := hbefore.sublist.count_le '\n'
      rw [if_neg (by omega)]
      exact h.last before hbefore

theorem append_of_ne (h : LineStarts starts text) {c : Char} (hc : c ≠ '\n') :
    LineStarts starts (text ++ [c]) := by
  have hcount : (text ++ [c]).count '\n' = text.count '\n' := by simp [hc]
  refine ⟨by rw [hcount, h.size_eq], fun before hbefore j start hstart => ?_, fun before hbefore => ?_⟩
  · rcases List.prefix_concat_iff.mp hbefore with rfl | hbefore
    · have := h.le_length hstart
      rw [hcount, List.length_append, List.length_singleton]
      omega
    · exact h.begins before hbefore j start hstart
  · rcases List.prefix_concat_iff.mp hbefore with rfl | hbefore
    · obtain ⟨start, hstart, hlength⟩ := h.last text List.prefix_rfl
      refine ⟨start, by rw [hcount, hstart], ?_⟩
      rw [lastLine_append_of_not_mem (by simpa using hc.symm), List.length_append, List.length_append,
        List.length_singleton]
      omega
    · exact h.last before hbefore

theorem addLineStarts (h : LineStarts starts text) (rest : List Char) :
    LineStarts (addLineStarts starts text.length rest) (text ++ rest) := by
  induction rest generalizing starts text with
  | nil => simpa [LemonScript.addLineStarts] using h
  | cons c rest ih =>
    have hstep : LineStarts (if c == '\n' then starts.push (text.length + 1) else starts) (text ++ [c]) := by
      split
      · next hc =>
        obtain rfl : c = '\n' := by simpa using hc
        exact h.push_newline
      · next hc => exact h.append_of_ne (by simpa using hc)
    simpa [LemonScript.addLineStarts] using ih hstep

end LineStarts

theorem lineStarts_spec (source : List Char) : LineStarts (lineStarts source) source := by
  simpa [lineStarts] using LineStarts.nil.addLineStarts source

theorem lineNumber_eq (h : before <+: source) :
    lineNumber (lineStarts source) before.length = before.count '\n' := by
  have hstarts := lineStarts_spec source
  have hcount := h.sublist.count_le '\n'
  have hsize := hstarts.size_eq
  have hbisect : bisect (fun i => (lineStarts source)[i]?.any (before.length < ·)) 0
      (lineStarts source).size = before.count '\n' + 1 := by
    refine bisect_eq (Nat.zero_le _) (by omega) fun i _ hi => ?_
    have hbegins := hstarts.begins before h i _ (Array.getElem?_eq_getElem hi)
    rw [Array.getElem?_eq_getElem hi, Option.any_some, decide_eq_true_iff]
    omega
  rw [lineNumber, hbisect, Nat.add_sub_cancel]

theorem Position.ofOffset_of_prefix (h : before <+: source) (filename : String) :
    ofOffset filename source before.length =
      ⟨1 + before.count '\n', 1 + (lastLine before).length, filename⟩ := by
  obtain ⟨start, hstart, hlength⟩ := (lineStarts_spec source).last before h
  have hmin : min before.length source.length = before.length := min_eq_left h.length_le
  have hget : (lineStarts source).getD (before.count '\n') 0 = start := by
    rw [Array.getD_eq_getD_getElem?, hstart, Option.getD_some]
  simp only [ofOffset, hmin, lineNumber_eq h, hget, mk.injEq, and_true]
  omega

/-! ### The order of positions -/

theorem position_lt (hmore : more ≠ []) :
    toLex (1 + (before.count '\n' : Int), 1 + ((lastLine before).length : Int)) <
      toLex (1 + ((before ++ more).count '\n' : Int), 1 + ((lastLine (before ++ more)).length : Int)) := by
  rw [Prod.Lex.toLex_lt_toLex]
  by_cases hnewline : '\n' ∈ more
  · have hcount : 0 < more.count '\n' := List.count_pos_iff.mpr hnewline
    refine .inl ?_
    rw [List.count_append]
    omega
  · have hlength : 0 < more.length := List.length_pos_iff.mpr hmore
    refine .inr ⟨?_, ?_⟩
    · rw [List.count_append, List.count_eq_zero.mpr hnewline, Nat.add_zero]
    · rw [lastLine_append_of_not_mem hnewline, List.length_append]
      omega

namespace Scanner

theorem position_eq (s : Scanner) (offset : Nat) : s.position offset =
    ⟨1 + (s.source.take offset).count '\n', 1 + (lastLine (s.source.take offset)).length, s.filename⟩ := by
  have hprefix := Position.ofOffset_of_prefix (List.take_prefix offset s.source) s.filename
  have hcapped : s.position offset = Position.ofOffset s.filename s.source (s.source.take offset).length := by
    simp [position, Position.ofOffset]
  rw [hcapped, hprefix]

theorem strictMonoOn_position (s : Scanner) :
    StrictMonoOn (fun offset => toLex ((s.position offset).line, (s.position offset).column))
      (Set.Iic s.source.length) := by
  intro i hi j hj hlt
  have hsplit : s.source.take j = s.source.take i ++ (s.source.drop i).take (j - i) := by
    rw [← List.take_add]
    congr 1
    omega
  have hmore : (s.source.drop i).take (j - i) ≠ [] := by
    have hj : j ≤ s.source.length := hj
    rw [← List.length_pos_iff, List.length_take, List.length_drop]
    omega
  simp only [position_eq]
  rw [hsplit]
  exact position_lt hmore

/-- Positions are exact. The line of an offset is one more than the number of newlines before it, and
its column is one more than the number of characters behind the last of these, or from the start. So
different offsets of a source have different positions, and a position that is further on in the
source is behind in the order of lines and then columns. -/
theorem position_exact (s : Scanner) :
    (∀ offset, s.position offset =
      ⟨1 + (s.source.take (min offset s.source.length)).count '\n',
        1 + (lastLine (s.source.take (min offset s.source.length))).length, s.filename⟩) ∧
    Set.InjOn s.position (Set.Iic s.source.length) ∧
    StrictMonoOn (fun offset => toLex ((s.position offset).line, (s.position offset).column))
      (Set.Iic s.source.length) := by
  refine ⟨fun offset => ?_, fun i hi j hj heq => ?_, s.strictMonoOn_position⟩
  · rw [position_eq, List.take_eq_take_min]
  · exact s.strictMonoOn_position.injOn hi hj (by rw [heq])

/-- A source of four lines, of which the second and the last are empty: a newline belongs to the line
that it ends. -/
example : [0, 2, 3, 4, 5, 7, 100].map (fun offset =>
    let p := (ofSource "" "ab\n\nçd\n").position offset
    (p.line, p.column)) = [(1, 1), (1, 3), (2, 1), (3, 1), (3, 2), (4, 1), (4, 1)] := by
  decide +kernel

end Scanner

end LemonScript
