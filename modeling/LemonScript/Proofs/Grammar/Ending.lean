import LemonScript.Proofs.Grammar.Memory
import LemonScript.Proofs.Grammar.Parallel
/-!
# Every parse ends

A rule goes back when it fails, and many rules begin where the rule around them began. Still no parse
runs for ever: a statement, an expression, a type, a parameter or a pair of a map that is read lies
behind at least one character, so nothing is repeated for nothing; and the grammar comes back to a rule
only behind the place where it was asked for that rule before. The second fact is seen by a trap: a
rule that ends the parse where it is asked at a certain offset makes no difference to a rule that began
at this offset or behind it.
-/

namespace LemonScript

open Rule

/-- The rules through which every recursion of the grammar goes. -/
inductive Inward
  | type | unary | power | expression | statement
deriving DecidableEq

abbrev Inward.Result : Inward → Type
  | type => Ty
  | _ => Node

def Rule.trap {α : Type} (offset : Nat) (r : Rule α) : Rule α := fun s =>
  if s.cursor.offset = offset then .aborted .tooDeep else r s

variable {α : Type} {P : α → Prop} {r : Rule α} {s : ParseState}

namespace Rules

def rule (g : Rules) : (i : Inward) → Rule i.Result
  | .type => g.type
  | .unary => g.unary
  | .power => g.power
  | .expression => g.expression
  | .statement => g.statement

def trap (g : Rules) (offset : Nat) : Inward → Rules
  | .type => { g with type := g.type.trap offset }
  | .unary => { g with unary := g.unary.trap offset }
  | .power => { g with power := g.power.trap offset }
  | .expression => { g with expression := g.expression.trap offset }
  | .statement => { g with statement := g.statement.trap offset }

end Rules

open Grammar Correspondence

section Trap

variable {M : Node → Prop} {source : List Char} {n offset : Nat} {g : Rules}

/-! ### Traps behind the place

A trap is not met by a rule that is only asked at other offsets. -/

theorem Rule.Reads.trap {eats : Bool} (hr : Reads M source n eats P r)
    (hapart : ∀ s : ParseState, s.Keeps M source → s.cursor.rest.length < n → s.cursor.offset ≠ offset) :
    Reads M source n eats P (r.trap offset) := by
  intro low s hs hlow hn
  unfold Rule.trap
  rw [if_neg (hapart s hs hn)]
  exact hr low s hs hlow hn

theorem Rules.Sound.mono {m : Nat} (hg : g.Sound M source m) (h : n ≤ m) : g.Sound M source n :=
  ⟨hg.closed, h.trans hg.limit, hg.type.mono h, hg.unary.mono h, hg.power.mono h, hg.expression.mono h,
    hg.statement.mono h⟩

theorem Rules.Sound.trap (hg : g.Sound M source n) (i : Inward)
    (hapart : ∀ s : ParseState, s.Keeps M source → s.cursor.rest.length < n → s.cursor.offset ≠ offset) :
    (g.trap offset i).Sound M source n := by
  cases i with
  | type => exact { hg with type := hg.type.trap hapart }
  | unary => exact { hg with unary := hg.unary.trap hapart }
  | power => exact { hg with power := hg.power.trap hapart }
  | expression => exact { hg with expression := hg.expression.trap hapart }
  | statement => exact { hg with statement := hg.statement.trap hapart }

theorem Rule.Reads.ne_tooDeep {eats : Bool} (hr : Reads M source n eats P r) (hs : s.Keeps M source)
    (hn : s.cursor.rest.length < n) : r s ≠ .aborted .tooDeep := by
  intro htooDeep
  have hends := hr 0 s hs (Nat.zero_le _) hn
  rw [htooDeep] at hends
  exact hends rfl

theorem Rules.Sound.ne_tooDeep (hg : g.Sound M source n) (i : Inward) (hs : s.Keeps M source)
    (hn : s.cursor.rest.length < n) : g.rule i s ≠ .aborted .tooDeep := by
  cases i with
  | type => exact hg.type.ne_tooDeep hs hn
  | unary => exact hg.unary.ne_tooDeep hs hn
  | power => exact hg.power.ne_tooDeep hs hn
  | expression => exact hg.expression.ne_tooDeep hs hn
  | statement => exact hg.statement.ne_tooDeep hs hn

/-! ### Traps in general

Where a trap makes a difference, it ends the parse. -/

theorem parallel_refl (r : Rule α) : same.Parallel r r := by
  rintro s _ rfl
  cases r s with
  | matched a s' => exact .matched a rfl
  | failed s' => exact .failed rfl
  | aborted reason => exact .aborted reason

theorem parallel_trap (offset : Nat) (r : Rule α) : same.Parallel (r.trap offset) r := by
  rintro s _ rfl
  unfold Rule.trap
  split
  · exact .tooDeep_left _
  · exact parallel_refl r s s rfl

theorem Rules.alike_trap (g : Rules) (offset : Nat) (i : Inward) :
    (g.trap offset i).Alike same.likeness g := by
  cases i <;> constructor <;> first | exact parallel_refl _ | exact parallel_trap offset _

theorem Rules.Alike.rule {L : Likeness} {g' : Rules} (hg : g.Alike L g') (i : Inward) :
    L.Alike (g.rule i) (g'.rule i) := by
  cases i with
  | type => exact hg.type
  | unary => exact hg.unary
  | power => exact hg.power
  | expression => exact hg.expression
  | statement => exact hg.statement

theorem parallel_around_trap (g : Rules) (offset : Nat) (i j : Inward) (s : ParseState) :
    Outcome.Parallel Eq ((around (g.trap offset j)).rule i s) ((around g).rule i s) :=
  (alike_around (g.alike_trap offset j) (parallel_reference (g.alike_trap offset j))).rule i s s rfl

end Trap

/-! ### Calls -/

/-- A call of a rule with some levels of rules further in. -/
structure Call where
  rule : Inward
  levels : Nat
  state : ParseState

namespace Call

variable {source : List Char} {limit : Nat}

/-- The call is one of a parse of the source, and has enough levels for what is ahead. -/
structure Fits (source : List Char) (limit : Nat) (c : Call) : Prop where
  sound : c.state.Sound source
  enough : c.state.cursor.rest.length < c.levels
  le : c.levels ≤ limit

/-- The first call asks for the rule of the second one, one level further in, at the offset of the
second one: it ends in another way if there is a trap. -/
structure Asks (source : List Char) (limit : Nat) (c d : Call) : Prop where
  sound : d.state.Sound source
  further : c.levels = d.levels + 1
  differs : (around ((rules limit d.levels).trap d.state.cursor.offset d.rule)).rule c.rule c.state ≠
    (rules limit c.levels).rule c.rule c.state

variable {c d : Call}

theorem Asks.offset_lt (h : Asks source limit c d) (hc : c.Fits source limit) :
    c.state.cursor.offset < d.state.cursor.offset := by
  by_contra hbefore
  have hfew : c.state.cursor.rest.length ≤ d.levels := by
    have := hc.enough
    have := h.further
    omega
  have hlimit : d.levels < limit := by
    have := hc.le
    have := h.further
    omega
  have hsound : (rules limit d.levels).Sound (fun _ => True) source c.state.cursor.rest.length :=
    (sound_rules hlimit.le).mono hfew
  -- with fewer characters ahead a state is behind the call, and so behind the trap
  have hapart : ∀ s : ParseState, s.Keeps (fun _ => True) source →
      s.cursor.rest.length < c.state.cursor.rest.length → s.cursor.offset ≠ d.state.cursor.offset := by
    intro s hs hrest
    have := hs.cursor_in.length
    have := hc.sound.cursor_in.length
    omega
  have hwithin : c.state.cursor.rest.length < (rules limit d.levels).limit := by
    rw [limit_rules]
    omega
  have htrapped := (sound_around (hsound.trap d.rule hapart) (by
    cases d.rule <;> exact hwithin)).ne_tooDeep c.rule hc.sound.keeps (Nat.lt_succ_self _)
  have hplain := (sound_around hsound hwithin).ne_tooDeep c.rule hc.sound.keeps (Nat.lt_succ_self _)
  refine h.differs ?_
  rw [h.further]
  exact (parallel_around_trap _ _ c.rule d.rule c.state).eq htrapped hplain

theorem Asks.fits (h : Asks source limit c d) (hc : c.Fits source limit) : d.Fits source limit := by
  have hlt := h.offset_lt hc
  have hfurther := h.further
  have henough := hc.enough
  have hle := hc.le
  have hlength := hc.sound.cursor_in.length
  have hlength' := h.sound.cursor_in.length
  exact ⟨h.sound, by omega, by omega⟩

theorem offset_lt_of_chain (h : Relation.TransGen (Asks source limit) c d)
    (hc : c.Fits source limit) :
    c.state.cursor.offset < d.state.cursor.offset ∧ d.Fits source limit := by
  induction h with
  | single hasks => exact ⟨hasks.offset_lt hc, hasks.fits hc⟩
  | tail _ hasks ih => exact ⟨ih.1.trans (hasks.offset_lt ih.2), hasks.fits ih.2⟩

end Call

/-! ### Progress -/

/-- How a rule may end that was asked in a state of a parse: behind that state if it matches, still in
the source if it fails, and never for want of levels. -/
inductive Outcome.Proceeds {α : Type} (source : List Char) (s : ParseState) : Outcome α → Prop
  | matched {a : α} {s' : ParseState} (sound : s'.Sound source)
      (behind : s.cursor.offset < s'.cursor.offset) : Proceeds source s (.matched a s')
  | failed {s' : ParseState} (sound : s'.Sound source) : Proceeds source s (.failed s')
  | aborted {reason : Abort} (shallow : reason ≠ .tooDeep) : Proceeds source s (.aborted reason)

theorem Rule.Reads.proceeds {M : Node → Prop} {source : List Char} {n : Nat}
    (hr : Reads M source n true P r) (hs : s.Keeps M source)
    (hn : s.cursor.rest.length < n) : (r s).Proceeds source s := by
  have hends := hr 0 s hs (Nat.zero_le _) hn
  cases hrun : r s with
  | matched =>
    rw [hrun] at hends
    exact .matched hends.1.toSound hends.2.1
  | failed s' =>
    rw [hrun] at hends
    exact .failed hends.1.toSound
  | aborted =>
    rw [hrun] at hends
    exact .aborted hends

def ParseState.start (filename source : String) : ParseState :=
  ⟨Scanner.ofSource filename source, some {}⟩

/-- The number of levels and of repetitions does not matter, as long as it is greater than the number of
characters. -/
theorem result_eq_parse {filename source : String} {size : Nat} (hsize : source.toList.length < size) :
    (program (rules size size) (.start filename source)).result = Program.parse filename source := by
  have hsound := ParseState.sound_ofSource filename source
  have halike : (rules size size).Alike same.likeness
      (rules (source.toList.length + 2) (source.toList.length + 2)) :=
    alike_rules (fun hg levels => parallel_reference (hg levels)) size _
  have hequal : program (rules size size) (.start filename source) =
      program (rules (source.toList.length + 2) (source.toList.length + 2)) (.start filename source) :=
    (alike_program halike _ _ rfl).eq (program_ne_tooDeep hsound hsize)
      (program_ne_tooDeep hsound (by omega))
  rw [hequal, Program.parse, parseFrom_eq_result]
  rfl

/-- What it means that the parse of a source ends. -/
structure ParseEnds (filename source : String) : Prop where
  begins : (ParseState.start filename source).Sound source.toList
  /-- A state of the parse does not stand behind the end of the source, nor does it when a token was
  asked for. -/
  inside : ∀ s : ParseState, s.Sound source.toList → s.cursor.offset ≤ source.length ∧
    ∀ {β γ : Type} {view : β → γ} {f : Scanner → β × Scanner}, Scanner.Question view f →
      ParseState.Sound source.toList { s with scanner := (f s.scanner).2 }
  /-- What is repeated or nested is never empty. -/
  proceeds : ∀ s : ParseState, s.Sound source.toList → ∀ limit levels,
    s.cursor.rest.length < levels → levels < limit →
    (statement (rules limit levels) s).Proceeds source.toList s ∧
    (expression (rules limit levels) s).Proceeds source.toList s ∧
    (type (rules limit levels) s).Proceeds source.toList s ∧
    (parameter (rules limit levels) s).Proceeds source.toList s ∧
    (keyValue (rules limit levels) s).Proceeds source.toList s
  /-- No chain of calls comes back to the offset where it began. -/
  descends : ∀ limit (c d : Call), c.Fits source.toList limit →
    Relation.TransGen (Call.Asks source.toList limit) c d →
    c.state.cursor.offset < d.state.cursor.offset
  /-- As many levels and repetitions as there are characters, and one more, are enough. -/
  enough : ∀ size, source.length < size →
    (program (rules size size) (.start filename source)).result = Program.parse filename source
  neverTooDeep : Program.parse filename source ≠ .error (.aborted .tooDeep)

/-- Every parse ends. Each statement, expression, type, parameter or pair that is read lies behind at
least one character, no place is behind the end of the source, no rule is asked again, by whatever
chain of rules, at the offset where it began, and a number of levels and repetitions greater than the
number of characters is never used up. -/
theorem Program.parse_ends (filename source : String) : ParseEnds filename source where
  begins := ParseState.sound_ofSource filename source
  inside s hs := ⟨hs.cursor_in.1, fun hf => hs.withScanner (hf.reads hs.scanner)⟩
  proceeds s hs limit levels hfew hlimit := by
    have hg : (rules limit levels).Sound (fun _ => True) source.toList levels := sound_rules hlimit.le
    have hwithin : levels < (rules limit levels).limit := by rwa [limit_rules]
    have hmore : s.cursor.rest.length < levels + 1 := by omega
    refine ⟨?_, ?_, ?_, ?_, ?_⟩
    · exact (reads_statement hg hwithin).proceeds hs.keeps hmore
    · exact (reads_expression hg hwithin).proceeds hs.keeps hmore
    · exact (reads_type hg hwithin).proceeds hs.keeps hmore
    · exact (reads_parameter hg hwithin).proceeds hs.keeps hfew
    · exact (reads_keyValue hg).proceeds hs.keeps hfew
  descends limit c d hc hchain := (Call.offset_lt_of_chain hchain hc).1
  enough size hsize := result_eq_parse hsize
  neverTooDeep := by
    rcases parse_cases filename source with ⟨p, hp, -⟩ | ⟨e, he⟩ | ⟨digits, he⟩
    · simp [hp]
    · simp [he]
    · simp [he]

/-! ### Brackets in brackets -/

def nestedAt (offset : Nat) : ParseState := ⟨(Scanner.ofSource "" "((7))").goTo offset, none⟩

def nestedCall (offset : Nat) : Call := ⟨.expression, 8 - offset, nestedAt offset⟩

def Outcome.isTooDeep {α : Type} : Outcome α → Bool
  | .aborted .tooDeep => true
  | _ => false

theorem sound_nestedAt {offset : Nat} (h : offset ≤ 5) : (nestedAt offset).Sound "((7))".toList :=
  sound_afresh ⟨rfl, h, rfl⟩

theorem asks_nestedCall {offset : Nat} (h : offset < 2) :
    Call.Asks "((7))".toList 8 (nestedCall offset) (nestedCall (offset + 1)) := by
  refine ⟨sound_nestedAt (by omega), ?_, fun hequal => ?_⟩
  · simp only [nestedCall]
    omega
  · have htooDeep := congrArg Outcome.isTooDeep hequal
    revert htooDeep
    interval_cases offset <;> decide +kernel

/-- An expression in brackets asks for the one inside, and that for the next. -/
theorem Program.parse_ends_nested :
    (nestedCall 0).Fits "((7))".toList 8 ∧
    Relation.TransGen (Call.Asks "((7))".toList 8) (nestedCall 0) (nestedCall 2) ∧
    (nestedCall 0).state.cursor.offset < (nestedCall 2).state.cursor.offset ∧
    (expression (rules 8 7) (nestedAt 1)).Proceeds "((7))".toList (nestedAt 1) ∧
    (program (rules 6 6) (.start "" "((7))")).result = Program.parse "" "((7))" := by
  have hends := Program.parse_ends "" "((7))"
  have hfits : (nestedCall 0).Fits "((7))".toList 8 :=
    ⟨sound_nestedAt (by decide), by decide +kernel, by decide⟩
  have houter : Call.Asks "((7))".toList 8 (nestedCall 0) (nestedCall 1) := asks_nestedCall (by decide)
  have hinner : Call.Asks "((7))".toList 8 (nestedCall 1) (nestedCall 2) := asks_nestedCall (by decide)
  have hchain := Relation.TransGen.tail (.single houter) hinner
  have hoffsets := hends.descends 8 (nestedCall 0) (nestedCall 2) hfits hchain
  have hfew : (nestedAt 1).cursor.rest.length < 7 := by decide +kernel
  have hproceeds := hends.proceeds (nestedAt 1) (sound_nestedAt (by decide)) 8 7 hfew (by decide)
  exact ⟨hfits, hchain, hoffsets, hproceeds.2.1, hends.enough 6 (by decide +kernel)⟩

end LemonScript
