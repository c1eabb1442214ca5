import LemonScript.Proofs.Grammar.Ending
/-!
# Where a rule fails

A rule that fails leaves the scanner where it began, or behind some of the blanks and comments there.
Rules that try alternatives from one place go back to it. The others begin with a question for a token,
which passes the blanks even if the answer is no, and whatever fails behind that token goes back to the
start. So a caller that goes on where a rule has failed finds the same token next.
-/

namespace LemonScript

open Rule

/-! ### Blanks and comments between two places -/

/-- Nothing but blanks and comments lies between the two places. -/
inductive Cursor.Passes : Cursor → Cursor → Prop
  | refl (c : Cursor) : Passes c c
  | blank {c d : Cursor} {x : Char} {xs : List Char} (hrest : c.rest = x :: xs) (hx : isBlank x = true)
      (h : Passes (c.advance 1) d) : Passes c d
  | comment {c d : Cursor} {n : Nat} (hn : commentLength? c.rest = some n) (h : Passes (c.advance n) d) :
      Passes c d

variable {text : List Char} {n : Nat} {s s' : ParseState}

theorem distance?_le {rest : List Char} (h : distance? text rest = some n) :
    n + text.length ≤ rest.length := by
  induction rest generalizing n with
  | nil =>
    unfold distance? at h
    split at h
    · next hempty =>
      obtain rfl := Option.some.inj h
      simp [List.isEmpty_iff.mp hempty]
    · cases h
  | cons c cs ih =>
    unfold distance? at h
    split at h
    · next hprefix =>
      obtain rfl := Option.some.inj h
      simpa using (List.isPrefixOf_iff_prefix.mp hprefix).length_le
    · obtain ⟨m, hm, rfl⟩ := Option.map_eq_some_iff.mp h
      have hle := ih hm
      simp only [List.length_cons]
      omega

theorem commentLength?_le (h : commentLength? text = some n) :
    n ≤ text.length ∧ 0 < n ∧ ∃ xs, text = '(' :: xs := by
  unfold commentLength? at h
  split at h
  · next hstart =>
    obtain ⟨body, rfl⟩ := List.isPrefixOf_iff_prefix.mp hstart
    obtain rfl := Option.some.inj h
    rw [List.drop_left, List.length_append]
    refine ⟨?_, by simp [commentStart], _, rfl⟩
    refine Nat.add_le_add_left ?_ _
    split
    · next m hm => exact distance?_le hm
    · exact (List.takeWhile_prefix _).length_le
  · cases h

namespace Cursor

variable {c d e : Cursor}
variable {x : Char} {xs : List Char}

theorem passBlanks_pending {pending : Nat} (h : pending ≤ text.length) (offset : Nat) :
    passBlanks pending offset text = passBlanks 0 (offset + pending) (text.drop pending) := by
  induction text generalizing pending offset with
  | nil =>
    obtain rfl : pending = 0 := by simpa using h
    rfl
  | cons x xs ih =>
    cases pending with
    | zero => rfl
    | succ n =>
      rw [passBlanks, ih (by simpa using h), List.drop_succ_cons]
      congr 1
      omega

theorem skipBlanks_of_blank (hrest : c.rest = x :: xs) (hx : isBlank x = true) :
    c.skipBlanks = (c.advance 1).skipBlanks := by
  simp [skipBlanks, advance, hrest, passBlanks, hx]

theorem skipBlanks_of_comment (hn : commentLength? c.rest = some n) :
    c.skipBlanks = (c.advance n).skipBlanks := by
  obtain ⟨hle, hpos, xs, hrest⟩ := commentLength?_le hn
  obtain ⟨m, rfl⟩ := Nat.exists_eq_add_of_lt hpos
  rw [hrest] at hn hle
  simp only [skipBlanks, advance, hrest, Nat.zero_add, List.drop_succ_cons]
  rw [passBlanks, if_neg (by decide), hn]
  dsimp only
  rw [Nat.zero_add, Nat.add_sub_cancel, passBlanks_pending (by simpa using hle)]
  congr 1
  omega

theorem skipBlanks_of_solid (hrest : c.rest = x :: xs) (hx : isBlank x = false)
    (hnone : commentLength? c.rest = none) : c.skipBlanks = c := by
  rw [hrest] at hnone
  obtain ⟨offset, rest⟩ := c
  obtain rfl : rest = x :: xs := hrest
  simp [skipBlanks, passBlanks, hx, hnone]

theorem Passes.trans (h : c.Passes d) (h' : d.Passes e) : c.Passes e := by
  induction h with
  | refl c => exact h'
  | blank hrest hx _ ih => exact .blank hrest hx (ih h')
  | comment hn _ ih => exact .comment hn (ih h')

theorem passes_skipBlanks (c : Cursor) : c.Passes c.skipBlanks := by
  -- what is ahead gets shorter with every blank and with every comment
  induction hlength : c.rest.length using Nat.strong_induction_on generalizing c with
  | _ k ih =>
    have hshorter {n : Nat} (hpos : 0 < n) (hne : c.rest ≠ []) : (c.advance n).rest.length < k := by
      have hrest := List.length_pos_iff.mpr hne
      simp only [advance, List.length_drop]
      omega
    cases hrest : c.rest with
    | nil =>
      have hskip : c.skipBlanks = c := by
        obtain ⟨offset, rest⟩ := c
        obtain rfl : rest = [] := hrest
        rfl
      rw [hskip]
      exact .refl c
    | cons x xs =>
      have hne : c.rest ≠ [] := by simp [hrest]
      by_cases hx : isBlank x = true
      · rw [skipBlanks_of_blank hrest hx]
        exact .blank hrest hx (ih _ (hshorter Nat.one_pos hne) _ rfl)
      · cases hcomment : commentLength? c.rest with
        | some n =>
          rw [skipBlanks_of_comment hcomment]
          exact .comment hcomment (ih _ (hshorter (commentLength?_le hcomment).2.1 hne) _ rfl)
        | none =>
          rw [skipBlanks_of_solid hrest (by simpa using hx) hcomment]
          exact .refl c

theorem Passes.skipBlanks_eq (h : c.Passes d) : d.skipBlanks = c.skipBlanks := by
  induction h with
  | refl c => rfl
  | blank hrest hx _ ih => rw [ih, ← skipBlanks_of_blank hrest hx]
  | comment hn _ ih => rw [ih, ← skipBlanks_of_comment hn]

end Cursor

/-- Every question for a token has the same answer in both states, and leads both to the same place. -/
def ParseState.SameNext (s s' : ParseState) : Prop :=
  ∀ {β γ : Type} {view : β → γ} {f : Scanner → β × Scanner}, Scanner.Question view f →
    (f s'.scanner).1 = (f s.scanner).1 ∧ (f s'.scanner).2.cursor = (f s.scanner).2.cursor

theorem ParseState.sameNext_of_passes (h : s.cursor.Passes s'.cursor) : s.SameNext s' := by
  intro β γ view f hf
  have hskip : s'.scanner.cursor.skipBlanks = s.scanner.cursor.skipBlanks := h.skipBlanks_eq
  rcases hf.answered s.scanner.cursor.skipBlanks.rest with ⟨answer, n, -, hfound⟩ | ⟨answer, k, wanted, hmissed⟩
  · rw [hfound s.scanner rfl, hfound s'.scanner (by rw [hskip])]
    exact ⟨congrArg (answer ·.offset) hskip, congrArg (·.advance n) hskip⟩
  · rw [hmissed s.scanner rfl, hmissed s'.scanner (by rw [hskip])]
    refine ⟨rfl, ?_⟩
    simp only [Scanner.cursor_failAt]
    exact hskip

/-! ### Rules that fail -/

namespace Rule

variable {α β : Type} {c : Cursor}

/-- Begun behind blanks that follow a place, the rule fails behind blanks that follow this place. -/
def FailsFrom (c : Cursor) (r : Rule α) : Prop :=
  ∀ s s' : ParseState, c.Passes s.cursor → r s = .failed s' → c.Passes s'.cursor

def FailsNear (r : Rule α) : Prop := ∀ c, FailsFrom c r

def FailsThere (r : Rule α) : Prop := ∀ s s' : ParseState, r s = .failed s' → s'.cursor = s.cursor

def NeverFails (r : Rule α) : Prop := ∀ s s' : ParseState, r s ≠ .failed s'

variable {r : Rule α} {f : α → Rule β}
variable {r' : Rule α}

theorem FailsThere.near (h : r.FailsThere) : r.FailsNear := by
  intro c s s' hs hrun
  rwa [h s s' hrun]

/-! ### Putting rules together -/

theorem cursor_of_onFailure (h : onFailure c r s = .failed s') : s'.cursor = c := by
  unfold onFailure at h
  split at h
  · cases h
    rfl
  · next hother => exact absurd h (hother s')

theorem failsThere_rewinding (r : Rule α) : (rewinding r).FailsThere := by
  intro s s' h
  exact cursor_of_onFailure h

theorem FailsThere.orElse (hr : r.FailsThere) (hr' : r'.FailsThere) : (r <|> r').FailsThere := by
  intro s s' h
  change Rule.orElse r (fun _ => r') s = .failed s' at h
  unfold Rule.orElse at h
  split at h
  · next t hrun => exact (hr' t s' h).trans (hr s t hrun)
  · exact hr s s' h

theorem failsThere_choice (rs : List (Rule α)) : (choice rs).FailsThere := by
  induction rs with
  | nil =>
    intro s s' h
    cases h
    rfl
  | cons r rs ih => exact (failsThere_rewinding r).orElse ih

theorem FailsFrom.orElse (hr : r.FailsFrom c) (hr' : r'.FailsFrom c) : (r <|> r').FailsFrom c := by
  intro s s' hs h
  change Rule.orElse r (fun _ => r') s = .failed s' at h
  unfold Rule.orElse at h
  split at h
  · next t hrun => exact hr' t s' (hr s t hs hrun) h
  · exact hr s s' hs h

theorem FailsFrom.bind (hr : r.FailsFrom c) (hf : ∀ a s s', f a s = .failed s' → c.Passes s'.cursor) :
    (r >>= f).FailsFrom c := by
  intro s s' hs h
  change Rule.bind r f s = .failed s' at h
  unfold Rule.bind at h
  split at h
  · next a t _ => exact hf a t s' h
  · next hrun =>
    cases h
    exact hr s s' hs hrun
  · cases h

theorem FailsNear.bind (hr : r.FailsNear) (hf : ∀ a, (f a).NeverFails) : (r >>= f).FailsNear := by
  intro c
  exact (hr c).bind fun a s s' h => absurd h (hf a s s')

theorem FailsFrom.attempt_bind {f : Option α → Rule β} (hr : r.FailsFrom c)
    (hsome : ∀ a, (f (some a)).NeverFails) (hnone : (f none).FailsFrom c) :
    (attempt r >>= f).FailsFrom c := by
  intro s s' hs h
  change Rule.bind (attempt r) f s = .failed s' at h
  unfold Rule.bind attempt at h
  cases hrun : r s with
  | matched a t =>
    rw [hrun] at h
    exact absurd h (hsome a t s')
  | failed t =>
    rw [hrun] at h
    exact hnone t s' (hr s t hs hrun) h
  | aborted =>
    rw [hrun] at h
    cases h

theorem failsNear_mark {f : Cursor → Rule α} (hf : ∀ c, (f c).FailsFrom c) : (mark >>= f).FailsNear := by
  intro c s s' hs h
  exact hs.trans (hf s.cursor s s' (.refl _) h)

theorem neverFails_pure (a : α) : (pure a : Rule α).NeverFails := by
  intro s s' h
  cases h

theorem neverFails_attempt (r : Rule α) : (attempt r).NeverFails := by
  intro s s' h
  unfold attempt at h
  split at h <;> cases h

theorem NeverFails.bind (hr : r.NeverFails) (hf : ∀ a, (f a).NeverFails) :
    (r >>= f).NeverFails := by
  intro s s' h
  change Rule.bind r f s = .failed s' at h
  unfold Rule.bind at h
  split at h
  · next a t _ => exact hf a t s' h
  · next t hrun => exact hr s t hrun
  · cases h

theorem neverFails_extend (r : α → Rule α) (limit : Nat) (a : α) : (extend r limit a).NeverFails := by
  induction limit generalizing a with
  | zero =>
    intro s s' h
    cases h
  | succ limit ih =>
    intro s s' h
    unfold extend at h
    split at h
    · next b t _ => exact ih b t s' h
    · cases h
    · cases h

/-! ### Tokens -/

theorem failsNear_ofTest {f : Scanner → Bool × Scanner} {strict : Scanner → Prop} {wanted : String}
    (hf : ∀ s, Scanner.Replies s (strict s) false wanted (f s)) : (ofTest f).FailsNear := by
  intro c s s' hs h
  unfold ofTest at h
  have hreply := hf s.scanner
  split at h
  · cases h
  · next scanner hanswer =>
    cases h
    rw [hanswer] at hreply
    cases hreply with
    | found hb => exact absurd rfl hb
    | missed =>
      change c.Passes (Scanner.failAt _ _ _).cursor
      rw [Scanner.cursor_failAt]
      exact hs.trans s.cursor.passes_skipBlanks

theorem failsNear_keyword (k : Keyword) : (keyword k).FailsNear :=
  failsNear_ofTest fun s => Scanner.replies_keyword s k

theorem failsNear_operator (op : String) : (operator op).FailsNear :=
  failsNear_ofTest fun s => Scanner.replies_operator s op

theorem failsNear_anyKeyword (ks : List Keyword) : (anyKeyword ks).FailsNear := by
  induction ks with
  | nil =>
    intro c s s' hs h
    cases h
    exact hs
  | cons k ks ih =>
    intro c
    exact ((failsNear_keyword k).bind (fun _ => neverFails_pure k) c).orElse (ih c)

end Rule

/-- Both runs end in the same way, with the same value and at the same place. -/
def Outcome.SameEnd {α : Type} : Outcome α → Outcome α → Prop
  | .matched a s, .matched a' s' => a = a' ∧ s.cursor = s'.cursor
  | .failed s, .failed s' => s.cursor = s'.cursor
  | .aborted reason, .aborted reason' => reason = reason'
  | _, _ => False

namespace Rule

variable {α β : Type} {s s' : ParseState}

theorem sameEnd_ofTest {f : Scanner → Bool × Scanner} (hf : Scanner.Question id f) (h : s.SameNext s') (a : α) :
    Outcome.SameEnd ((do ofTest f; return a : Rule α) s') ((do ofTest f; return a : Rule α) s) := by
  obtain ⟨hanswer, hcursor⟩ := h hf
  change Outcome.SameEnd (Rule.bind (ofTest f) (fun _ => pure a) s') (Rule.bind (ofTest f) (fun _ => pure a) s)
  unfold Rule.bind ofTest
  rcases hrun : f s.scanner with ⟨_ | _, u⟩ <;> rcases hrun' : f s'.scanner with ⟨_ | _, u'⟩ <;>
    rw [hrun, hrun'] at hanswer hcursor
  · exact hcursor
  · cases hanswer
  · cases hanswer
  · exact ⟨rfl, hcursor⟩

theorem sameEnd_ofScan {γ : Type} {view : Option α → γ} {f : Scanner → Option α × Scanner}
    (hf : Scanner.Question view f) (h : s.SameNext s') (k : α → β) :
    Outcome.SameEnd ((do return k (← ofScan f) : Rule β) s') ((do return k (← ofScan f) : Rule β) s) := by
  obtain ⟨hanswer, hcursor⟩ := h hf
  change Outcome.SameEnd (Rule.bind (ofScan f) (fun a => pure (k a)) s') (Rule.bind (ofScan f) (fun a => pure (k a)) s)
  unfold Rule.bind ofScan
  rcases hrun : f s.scanner with ⟨_ | a, u⟩ <;> rcases hrun' : f s'.scanner with ⟨_ | a', u'⟩ <;>
    rw [hrun, hrun'] at hanswer hcursor
  · exact hcursor
  · cases hanswer
  · cases hanswer
  · cases hanswer
    exact ⟨rfl, hcursor⟩

end Rule

namespace Grammar

variable {g : Rules}

/-! ### The rules of the grammar -/

theorem failsFrom_signed (start : Cursor) (op : UnaryOp) : (signed g start op).FailsFrom start := by
  refine (failsNear_operator _ start).bind ?_
  intro _ s s' h
  rw [cursor_of_onFailure h]
  exact .refl start

theorem failsNear_primary : (primary g).FailsNear := (failsThere_choice _).near

theorem failsNear_unary : (unary g).FailsNear :=
  failsNear_mark fun start =>
    (failsFrom_signed start .neg).orElse ((failsFrom_signed start .not).orElse (failsNear_primary start))

theorem failsNear_power : (power g).FailsNear := by
  refine failsNear_unary.bind fun base => ?_
  refine (neverFails_attempt _).bind fun exponent => ?_
  cases exponent with
  | none => exact neverFails_pure base
  | some e => exact neverFails_pure _

theorem FailsNear.leftChain {operand : Rule Node} (h : operand.FailsNear) (ops : List BinaryOp) :
    (leftChain g ops operand).FailsNear :=
  h.bind fun first => neverFails_extend _ _ first

theorem failsNear_multiplicative : (multiplicative g).FailsNear := FailsNear.leftChain failsNear_power _

theorem failsNear_additive : (additive g).FailsNear := FailsNear.leftChain failsNear_multiplicative _

theorem failsNear_relational : (relational g).FailsNear := FailsNear.leftChain failsNear_additive _

theorem failsNear_expression : (expression g).FailsNear := FailsNear.leftChain failsNear_relational _

theorem failsNear_elementType : (elementType g).FailsNear := by
  refine failsNear_mark fun start => ?_
  refine (failsNear_anyKeyword _ start).attempt_bind (fun k => neverFails_pure _) ?_
  refine (failsNear_operator "<" start).bind ?_
  intro _ s s' h
  rw [cursor_of_onFailure h]
  exact .refl start

theorem failsNear_type : (type g).FailsNear :=
  failsNear_elementType.bind fun element => neverFails_extend _ _ element

theorem failsThere_keyValue : (keyValue g).FailsThere := failsThere_rewinding _

theorem failsThere_importing : importing.FailsThere := failsThere_rewinding _

theorem failsThere_statement : (statement g).FailsThere := failsThere_choice _

section Memory

variable {source : List Char} {limit : Nat}

theorem cursor_of_keep {offset : Nat} {r : Rule Node} (h : keep offset (rewinding r s) = .failed s') :
    s'.cursor = s.cursor := by
  cases hrun : rewinding r s with
  | failed t =>
    rw [hrun] at h
    cases h
    exact failsThere_rewinding r s t hrun
  | _ =>
    rw [hrun] at h
    cases h

/-- That there was no variable at an offset is remembered with this very offset: a look without a memory
is nested deep enough for the source, and so it fails as it was remembered. -/
theorem stop_of_missing (hlimit : source.length < limit) {u : Scanner} {c stop : Cursor} (hc : c.In source)
    (h : Remembered.Right source limit u c.offset ⟨none, stop⟩) : stop = c := by
  obtain ⟨notes, -, hecho⟩ := h.found source.length
  let v : Scanner := ⟨"", source, c, 0, []⟩
  have hreads : v.Reads source := ⟨rfl, hc⟩
  rcases hecho v hc.eq_ofOffset with hfailed | htooDeep | hreplay
  · cases hfailed
  · have hlength : c.rest.length < source.length + 1 := by
      have := hc.length
      omega
    have hread : Reads _ source (source.length + 1) true _ (reference (rules limit source.length)) :=
      reads_reference (sound_rules hlimit.le) (by rwa [limit_rules])
    exact absurd htooDeep (hread.ne_tooDeep (sound_afresh hreads).keeps hlength)
  · rw [reference_of_none rfl] at hreplay
    exact cursor_of_keep hreplay

theorem cursor_of_reference (hlimit : source.length < limit) (hs : s.Faithful source limit)
    (h : reference g s = .failed s') : s'.cursor = s.cursor := by
  cases hfound : s.remembered? s.cursor.offset with
  | some r =>
    rw [reference_of_some hfound] at h
    rcases r with ⟨_ | node, stop⟩
    · cases h
      exact stop_of_missing hlimit hs.scanner.cursor_in (hs.memory _ _ hfound)
    · cases h
  | none =>
    rw [reference_of_none hfound] at h
    exact cursor_of_keep h

/-! ### Callers that go on where a rule has failed -/

theorem failsNear_inward (limit levels : Nat) : (rules limit levels).expression.FailsNear := by
  cases levels with
  | zero =>
    intro c s s' _ h
    cases h
  | succ => exact failsNear_expression

theorem passes_of_arguments (hg : g.expression.FailsNear) (h : arguments g s = .matched [] s') :
    s.cursor.Passes s'.cursor := by
  change Rule.bind (attempt g.expression) _ s = _ at h
  unfold Rule.bind attempt at h
  cases hrun : g.expression s with
  | matched first t =>
    rw [hrun] at h
    change Rule.bind _ _ t = _ at h
    unfold Rule.bind at h
    -- one argument at least was found
    split at h <;> cases h
  | failed t =>
    rw [hrun] at h
    cases h
    exact hg s.cursor s s' (.refl _) hrun
  | aborted =>
    rw [hrun] at h
    cases h

theorem arrayLiteral_of_failed {t t' : ParseState} (hopen : operator "[" s = .matched () t)
    (hnone : g.expression t = .failed t') :
    arrayLiteral g s = (do operator "]"; return .arrayLit (some []) .nothing : Rule Node) t' := by
  have harguments : arguments g t = .matched [] t' := by
    change Rule.bind (attempt g.expression) _ t = _
    unfold Rule.bind attempt
    rw [hnone]
    rfl
  change Rule.bind (operator "[") _ s = _
  unfold Rule.bind
  rw [hopen]
  change Rule.bind (arguments g) _ t = _
  unfold Rule.bind
  rw [harguments]

theorem bindingType_of_failed (h : type g s = .failed s') :
    bindingType g s = (do return .named (← identifier) : Rule Ty) s' := by
  unfold bindingType
  change Rule.orElse (type g) (fun _ => _) s = _
  unfold Rule.orElse
  rw [h]

theorem named_eq : (do return .named (← identifier) : Rule Ty) =
    (do return .named (← ofScan Scanner.identifier).text) := by
  funext s
  change Rule.bind (Rule.bind (ofScan Scanner.identifier) _) _ s = Rule.bind (ofScan Scanner.identifier) _ s
  unfold Rule.bind
  cases ofScan Scanner.identifier s <;> rfl

/-- A rule for expressions or a part of them, or the rule for types, fails in the first state and leaves
the second one. -/
inductive PartFails (g : Rules) (s s' : ParseState) : Prop
  | expression (h : expression g s = .failed s')
  | relational (h : relational g s = .failed s')
  | additive (h : additive g s = .failed s')
  | multiplicative (h : multiplicative g s = .failed s')
  | power (h : power g s = .failed s')
  | unary (h : unary g s = .failed s')
  | primary (h : primary g s = .failed s')
  | reference (h : reference g s = .failed s')
  | entry (h : keyValue g s = .failed s')
  | type (h : type g s = .failed s')

theorem PartFails.passes (hlimit : source.length < limit) (hs : s.Faithful source limit)
    (h : PartFails g s s') : s.cursor.Passes s'.cursor := by
  have hstart := Cursor.Passes.refl s.cursor
  cases h with
  | expression h => exact failsNear_expression _ s s' hstart h
  | relational h => exact failsNear_relational _ s s' hstart h
  | additive h => exact failsNear_additive _ s s' hstart h
  | multiplicative h => exact failsNear_multiplicative _ s s' hstart h
  | power h => exact failsNear_power _ s s' hstart h
  | unary h => exact failsNear_unary _ s s' hstart h
  | primary h => exact failsNear_primary _ s s' hstart h
  | reference h => rwa [cursor_of_reference hlimit hs h]
  | entry h => exact failsThere_keyValue.near _ s s' hstart h
  | type h => exact failsNear_type _ s s' hstart h

/-- In every state that a parse of a source can be in, the rules for statements and for imports fail exactly
where they began. The rules for expressions and their parts and the rule for types fail there or behind
some blanks and comments. So the next token is the same, also for the callers that go on at this place:
a list without arguments, an array without elements, and a type that is given by a name. -/
theorem failure_passes_blanks (hlimit : source.length < limit) {s : ParseState}
    (hs : s.Faithful source limit) (levels : Nat) :
    (∀ s', statement (rules limit levels) s = .failed s' ∨ importing s = .failed s' → s'.cursor = s.cursor) ∧
    (∀ s', PartFails (rules limit levels) s s' → s.cursor.Passes s'.cursor ∧ s.SameNext s') ∧
    (∀ s', arguments (rules limit levels) s = .matched [] s' → s.SameNext s') ∧
    (∀ t t', operator "[" s = .matched () t → (rules limit levels).expression t = .failed t' →
      Outcome.SameEnd (arrayLiteral (rules limit levels) s)
        ((do operator "]"; return .arrayLit (some []) .nothing : Rule Node) t)) ∧
    (∀ s', type (rules limit levels) s = .failed s' →
      Outcome.SameEnd (bindingType (rules limit levels) s)
        ((do return .named (← identifier) : Rule Ty) s)) := by
  have hinward := failsNear_inward limit levels
  refine ⟨?_, ?_, ?_, ?_, ?_⟩
  · rintro s' (h | h)
    · exact failsThere_statement s s' h
    · exact failsThere_importing s s' h
  · intro s' h
    have hpasses := h.passes hlimit hs
    exact ⟨hpasses, ParseState.sameNext_of_passes hpasses⟩
  · intro s' h
    exact ParseState.sameNext_of_passes (passes_of_arguments hinward h)
  · intro t t' hopen hnone
    rw [arrayLiteral_of_failed hopen hnone]
    exact sameEnd_ofTest (Scanner.question_operator (by decide))
      (ParseState.sameNext_of_passes (hinward _ t t' (.refl _) hnone)) _
  · intro s' h
    rw [bindingType_of_failed h, named_eq]
    exact sameEnd_ofScan Scanner.question_identifier
      (ParseState.sameNext_of_passes (failsNear_type _ s s' (.refl _) h)) _

end Memory

def emptied : String := "[( *) nothing\n]"

def insideEmptied : ParseState :=
  ParseState.reset ⟨Scanner.ofSource "" emptied, some {}⟩ (Cursor.ofOffset emptied.toList 1)

theorem failure_passes_blanks_emptied :
    emptied.toList.length < 20 ∧ insideEmptied.Faithful emptied.toList 20 ∧
    ∃ s', PartFails (rules 20 20) insideEmptied s' ∧ s'.cursor.offset = 14 ∧
      insideEmptied.cursor.Passes s'.cursor ∧ insideEmptied.SameNext s' := by
  have hlength : emptied.toList.length < 20 := by decide
  have hfaithful : insideEmptied.Faithful emptied.toList 20 :=
    (ParseState.faithful_ofSource "" emptied 20).reset ⟨by decide, rfl⟩
  have hfails : ∃ s', PartFails (rules 20 20) insideEmptied s' ∧ s'.cursor.offset = 14 :=
    ⟨_, .expression rfl, rfl⟩
  obtain ⟨s', hpart, hoffset⟩ := hfails
  obtain ⟨-, hpasses, -⟩ := failure_passes_blanks hlength hfaithful 20
  exact ⟨hlength, hfaithful, s', hpart, hoffset, hpasses s' hpart⟩

end Grammar

end LemonScript
