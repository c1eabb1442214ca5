import LemonScript.Proofs.Grammar.Memory
import LemonScript.Proofs.Token.Line
/-!
# Rules on a line of tokens

How a rule ends where some tokens are ahead, said without offsets: it yields a value and leaves the
tokens behind it ahead, or it refuses and leaves all of them there. Rules run without a memory here,
and a run that is nested too deeply counts for everything. Chains that group to the left are read by
a rule that extends what it has, so for them it is said how far such a chain has come.
-/

namespace LemonScript

/-- The tokens ahead, behind blanks. -/
structure Scanner.Ahead (u : Scanner) (ts : List String) : Prop where
  rest_eq : u.cursor.skipBlanks.rest = line ts
  solid : ∀ t ∈ ts, isSolid t

variable {u : Scanner} {ts : List String}

theorem Scanner.ahead_of_gap (h : u.cursor.rest = gap ts) (hts : ∀ t ∈ ts, isSolid t) :
    u.Ahead ts := by
  refine ⟨?_, hts⟩
  rw [Cursor.skipBlanks, h]
  exact rest_passBlanks_gap hts _

theorem Scanner.ahead_of_line (h : u.cursor.rest = line ts) (hts : ∀ t ∈ ts, isSolid t) :
    u.Ahead ts := by
  refine ⟨?_, hts⟩
  rw [Cursor.skipBlanks, h, passBlanks_line hts]

namespace Rule

variable {α β : Type}

/-- Where these tokens are ahead, the rule ends in one of these ways. -/
def Leads (r : Rule α) (ts : List String) (Q : Outcome α → Prop) : Prop :=
  ∀ u : Scanner, u.Ahead ts → r ⟨u, none⟩ = .aborted .tooDeep ∨ Q (r ⟨u, none⟩)

/-- The rule reads a value from the tokens and leaves some of them. -/
def Yields (r : Rule α) (ts : List String) (a : α) (rest : List String) : Prop :=
  r.Leads ts fun o => ∃ u : Scanner, u.Ahead rest ∧ o = .matched a ⟨u, none⟩

def Refuses (r : Rule α) (ts : List String) : Prop :=
  r.Leads ts fun o => ∃ u : Scanner, u.Ahead ts ∧ o = .failed ⟨u, none⟩

variable {r : Rule α} {ts rest mid : List String} {a : α}

/-! ### One rule after another -/

variable {Q : Outcome α → Prop}
variable {hit : α → Rule β} {miss : Rule β} {rs : List (Rule α)}

theorem leads_tooDeep (Q : Outcome α → Prop) : Leads (abort .tooDeep) ts Q :=
  fun _ _ => .inl rfl

theorem yields_pure : Yields (pure a) ts a ts :=
  fun u hu => .inr ⟨u, hu, rfl⟩

theorem refuses_fail : Refuses (fail : Rule α) ts :=
  fun u hu => .inr ⟨u, hu, rfl⟩

theorem Yields.after {Q : Outcome β → Prop} (hr : r.Yields ts a mid) (h : (hit a).Leads mid Q) :
    (after r hit miss).Leads ts Q := by
  intro u hu
  unfold Rule.after
  rcases hr u hu with hrun | ⟨u', hu', hrun⟩
  · rw [hrun]
    exact .inl rfl
  · rw [hrun]
    exact h u' hu'

theorem Refuses.after {Q : Outcome β → Prop} (hr : r.Refuses ts) (h : miss.Leads ts Q) :
    (after r hit miss).Leads ts Q := by
  intro u hu
  unfold Rule.after
  rcases hr u hu with hrun | ⟨u', hu', hrun⟩
  · rw [hrun]
    exact .inl rfl
  · rw [hrun]
    exact h u' hu'

theorem Yields.bind {f : α → Rule β} {Q : Outcome β → Prop} (hr : r.Yields ts a mid)
    (h : (f a).Leads mid Q) : (r >>= f).Leads ts Q := by
  rw [bind_eq_after]
  exact hr.after h

theorem Refuses.bind (f : α → Rule β) (hr : r.Refuses ts) : (r >>= f).Refuses ts := by
  rw [bind_eq_after]
  exact hr.after refuses_fail

theorem Yields.orElse (hr : r.Yields ts a rest) (r' : Rule α) : (r <|> r').Yields ts a rest := by
  rw [orElse_eq_after]
  exact hr.after yields_pure

theorem Refuses.orElse {r' : Rule α} (hr : r.Refuses ts) (h : r'.Leads ts Q) :
    (r <|> r').Leads ts Q := by
  rw [orElse_eq_after]
  exact hr.after h

theorem Yields.attempt (hr : r.Yields ts a rest) : (attempt r).Yields ts (some a) rest := by
  rw [attempt_eq_after]
  exact hr.after yields_pure

theorem Refuses.attempt (hr : r.Refuses ts) : (attempt r).Yields ts none ts := by
  rw [attempt_eq_after]
  exact hr.after yields_pure

theorem Yields.onFailure (hr : r.Yields ts a rest) (c : Cursor) : (onFailure c r).Yields ts a rest := by
  rw [onFailure_eq_after]
  exact hr.after yields_pure

theorem Yields.rewinding (hr : r.Yields ts a rest) : (rewinding r).Yields ts a rest :=
  fun u hu => hr.onFailure u.cursor u hu

theorem Refuses.rewinding (hr : r.Refuses ts) : (rewinding r).Refuses ts := by
  intro u hu
  change Rule.onFailure u.cursor r ⟨u, none⟩ = _ ∨ ∃ u', _ ∧ Rule.onFailure u.cursor r ⟨u, none⟩ = _
  unfold Rule.onFailure
  rcases hr u hu with hrun | ⟨u', hu', hrun⟩
  · rw [hrun]
    exact .inl rfl
  · rw [hrun]
    exact .inr ⟨u'.reset u.cursor, ⟨hu.rest_eq, hu.solid⟩, rfl⟩

theorem Leads.mark_bind {f : Cursor → Rule α} (h : ∀ c, (f c).Leads ts Q) :
    (mark >>= f).Leads ts Q :=
  fun u hu => h u.cursor u hu

/-! ### Repetition -/

theorem Refuses.many (hr : r.Refuses ts) (n : Nat) : (many r n).Yields ts [] ts := by
  cases n with
  | zero => exact leads_tooDeep _
  | succ n =>
    rw [many_succ_eq_after]
    exact hr.after yields_pure

theorem Yields.many {as : List α} (hr : r.Yields ts a mid)
    (h : ∀ n, (many r n).Yields mid as rest) (n : Nat) : (many r n).Yields ts (a :: as) rest := by
  cases n with
  | zero => exact leads_tooDeep _
  | succ n =>
    rw [many_succ_eq_after]
    exact hr.after ((h n).after yields_pure)

/-- A chain that has come so far: what is left is to extend `a` where `rest` is ahead. -/
def Extending (step : α → Rule α) (a : α) (rest : List String) (o : Outcome α) : Prop :=
  ∃ n, ∃ u : Scanner, u.Ahead rest ∧ o = extend step n a ⟨u, none⟩

variable {step : α → Rule α} {b : α}

theorem leads_extend (n : Nat) : (extend step n a).Leads ts (Extending step a ts) :=
  fun u hu => .inr ⟨n, u, hu, rfl⟩

theorem Leads.of_extending (hr : r.Leads ts (Extending step a mid))
    (h : ∀ n, (extend step (n + 1) a).Leads mid Q) : r.Leads ts Q := by
  intro u hu
  rcases hr u hu with hrun | ⟨n, u', hu', hrun⟩
  · exact .inl hrun
  · rw [hrun]
    cases n with
    | zero => exact .inl rfl
    | succ n => exact h n u' hu'

theorem Leads.extending (hr : r.Leads ts (Extending step a mid)) (h : (step a).Yields mid b rest) :
    r.Leads ts (Extending step b rest) := by
  refine hr.of_extending fun n => ?_
  rw [extend_succ_eq_after]
  exact h.after (leads_extend n)

theorem Leads.yields (hr : r.Leads ts (Extending step a rest)) (h : (step a).Refuses rest) :
    r.Yields ts a rest := by
  refine hr.of_extending fun n => ?_
  rw [extend_succ_eq_after]
  exact h.after yields_pure

/-! ### Choices -/

theorem Yields.choice (hr : r.Yields ts a rest) (rs : List (Rule α)) :
    (Rule.choice (r :: rs)).Yields ts a rest :=
  hr.rewinding.orElse (Rule.choice rs)

theorem Refuses.choice (hr : r.Refuses ts) (h : (Rule.choice rs).Leads ts Q) :
    (Rule.choice (r :: rs)).Leads ts Q :=
  hr.rewinding.orElse h

theorem refuses_choice (h : ∀ r ∈ rs, Refuses r ts) : (choice rs).Refuses ts := by
  induction rs with
  | nil => exact refuses_fail
  | cons r rs ih =>
    exact (h r List.mem_cons_self).choice (ih fun r' hr' => h r' (List.mem_cons_of_mem r hr'))

/-! ### Single tokens -/

section Tokens

variable {t : String} {u : Scanner}
variable {τ : Type} {k : Keyword} {op : String} {f : Scanner → Option τ × Scanner}
  {ops : List BinaryOp}

theorem rest_skipBlanks (hu : u.Ahead ts) : u.skipBlanks.cursor.rest = line ts := hu.rest_eq

theorem ahead_behind (hu : u.Ahead (t :: ts)) {n : Nat} (hn : n = t.toList.length) :
    (u.skipBlanks.advance n).Ahead ts := by
  refine Scanner.ahead_of_gap ?_ fun t' ht' => hu.solid t' (List.mem_cons_of_mem t ht')
  change u.skipBlanks.cursor.rest.drop n = gap ts
  rw [rest_skipBlanks hu, hn, line, List.drop_left]

theorem ahead_failAt (hu : u.Ahead ts) (offset : Nat) (wanted : String) :
    (u.skipBlanks.failAt offset wanted).Ahead ts := by
  refine Scanner.ahead_of_line ?_ hu.solid
  have hcursor : (u.skipBlanks.failAt offset wanted).cursor = u.skipBlanks.cursor := by
    unfold Scanner.failAt
    split_ifs <;> rfl
  rw [hcursor, rest_skipBlanks hu]

theorem refuses_keyword (h : startsWithWord k.spelling.toList (line ts) = false) :
    (keyword k).Refuses ts := by
  intro u hu
  refine .inr ⟨_, ahead_failAt hu u.skipBlanks.offset (TokenKind.keyword k).text, ?_⟩
  have hword : startsWithWord k.spelling.toList u.skipBlanks.cursor.rest = false := by
    rw [rest_skipBlanks hu]
    exact h
  simp [keyword, ofTest, Scanner.keyword, Scanner.fail, TokenKind.spelling, hword]

theorem yields_keyword (hts : Punctuated ts) : (keyword k).Yields (k.spelling :: ts) () ts := by
  intro u hu
  refine .inr ⟨_, ahead_behind hu rfl, ?_⟩
  have hword : startsWithWord k.spelling.toList u.skipBlanks.cursor.rest = true := by
    rw [rest_skipBlanks hu, startsWithWord_line k.spelling hts]
    cases k <;> decide +kernel
  simp [keyword, ofTest, Scanner.keyword, TokenKind.spelling, hword]

theorem refuses_operator (h : startsWithOperator op (line ts) = false) :
    (operator op).Refuses ts := by
  intro u hu
  refine .inr ⟨_, ahead_failAt hu u.skipBlanks.offset (quoted op), ?_⟩
  have hop : startsWithOperator op u.skipBlanks.cursor.rest = false := by
    rw [rest_skipBlanks hu]
    exact h
  simp [operator, ofTest, Scanner.operator, hop, Scanner.fail]

theorem yields_operator (hblank : ' ' ∉ op.toList) (hlonger : startsWithOperator op op.toList) :
    (operator op).Yields (op :: ts) () ts := by
  intro u hu
  refine .inr ⟨_, ahead_behind hu String.length_toList.symm, ?_⟩
  have hop : startsWithOperator op u.skipBlanks.cursor.rest = true := by
    rw [rest_skipBlanks hu, startsWithOperator_line hblank]
    exact hlonger
  simp [operator, ofTest, Scanner.operator, hop]

/-- A token that the scanner passes. Where it stood is known to the token, but not to what follows. -/
theorem leads_ofScan_bind {k : τ → Rule α} (h : ∀ u : Scanner, u.Ahead (t :: ts) → ∃ token,
      f u = (some token, u.skipBlanks.advance t.toList.length) ∧ (k token).Leads ts Q) :
    (ofScan f >>= k).Leads (t :: ts) Q := by
  intro u hu
  obtain ⟨token, hscan, hk⟩ := h u hu
  have hrun : (ofScan f >>= k) ⟨u, none⟩ = k token ⟨u.skipBlanks.advance t.toList.length, none⟩ := by
    change Rule.bind (ofScan f) k ⟨u, none⟩ = _
    simp [Rule.bind, ofScan, hscan]
  rw [hrun]
  exact hk _ (ahead_behind hu rfl)

theorem refuses_ofScan_bind (k : τ → Rule α)
    (h : ∀ u : Scanner, u.Ahead ts → ∃ offset wanted, f u = (none, u.skipBlanks.failAt offset wanted)) :
    (ofScan f >>= k).Refuses ts := by
  refine Refuses.bind k ?_
  intro u hu
  obtain ⟨offset, wanted, hscan⟩ := h u hu
  refine .inr ⟨_, ahead_failAt hu offset wanted, ?_⟩
  simp [ofScan, hscan]

theorem refuses_identifier (h : identifier? (line ts) = none) : identifier.Refuses ts := by
  refine refuses_ofScan_bind _ fun u hu => ⟨u.skipBlanks.offset, TokenKind.identifier.text, ?_⟩
  rw [← rest_skipBlanks hu] at h
  simp [Scanner.identifier, h, Scanner.fail]

theorem yields_identifier {name : String} (h : identifier? name.toList = some name.toList)
    (hts : Punctuated ts) : identifier.Yields (name :: ts) name ts := by
  refine leads_ofScan_bind fun u hu => ⟨⟨.identifier, String.ofList name.toList, u.skipBlanks.offset,
    u.skipBlanks.offset + name.toList.length⟩, ?_, ?_⟩
  · rw [← identifier?_line name hts, ← rest_skipBlanks hu] at h
    simp only [Scanner.identifier, h]
    rfl
  · rw [String.ofList_toList]
    exact yields_pure

theorem leads_digits_bind (ht : isNumeral t) {k : Nat → Rule α}
    (h : (k (decimalValue t.toList)).Leads ts Q) :
    (ofScan Scanner.digits >>= fun index => k (decimalValue index.text.toList)).Leads (t :: ts) Q := by
  refine leads_ofScan_bind fun u hu => ⟨⟨.number, String.ofList t.toList, u.skipBlanks.offset,
    u.skipBlanks.offset + t.toList.length⟩, ?_, ?_⟩
  · have hdigits := takeWhile_isDigit_line ht ts
    rw [← rest_skipBlanks hu] at hdigits
    have hne : t.toList ≠ [] := by
      rintro hnil
      simp [isNumeral, hnil] at ht
    obtain ⟨c, cs, hcons⟩ := List.exists_cons_of_ne_nil hne
    rw [hcons] at hdigits ⊢
    simp only [Scanner.digits, hdigits]
    rfl
  · rw [String.ofList_toList]
    exact h

theorem yields_number (ht : isNumeral t) :
    Grammar.number.Yields (t :: ts) (.intLit (decimalValue t.toList)) ts := by
  refine leads_ofScan_bind fun u hu => ⟨(⟨.number, String.ofList t.toList, u.skipBlanks.offset,
    u.skipBlanks.offset + t.toList.length⟩, ⟨t.toList, none⟩), ?_, ?_⟩
  · have hnumber := number?_line ht ts
    rw [← rest_skipBlanks hu] at hnumber
    simp only [Scanner.number, hnumber]
    rfl
  · exact yields_pure

theorem refuses_number (h : (line ts).head?.any isDigit = false) : Grammar.number.Refuses ts := by
  refine refuses_ofScan_bind _ fun u hu => ⟨u.skipBlanks.offset, TokenKind.number.text, ?_⟩
  have hnumber := number?_eq_none h
  rw [← rest_skipBlanks hu] at hnumber
  simp [Scanner.number, hnumber, Scanner.fail]

theorem yields_stringLiteral {body text : List Char} (h : Quotes body text)
    (ht : t.toList = '"' :: body ++ ['"']) :
    Grammar.stringLiteral.Yields (t :: ts) (.stringLit (String.ofList text)) ts := by
  refine leads_ofScan_bind fun u hu => ⟨⟨.string, String.ofList text, u.skipBlanks.offset,
    u.skipBlanks.offset + t.toList.length⟩, ?_, ?_⟩
  · have hrest : u.skipBlanks.cursor.rest = '"' :: (body ++ '"' :: gap ts) := by
      rw [rest_skipBlanks hu, line, ht]
      simp
    have hlength : t.toList.length = body.length + 2 := by
      rw [ht]
      simp
    rw [hlength]
    exact Scanner.string_of_closed h hrest
  · exact yields_pure

theorem refuses_stringLiteral (h : (line ts).head? ≠ some '"') : Grammar.stringLiteral.Refuses ts := by
  refine refuses_ofScan_bind _ fun u hu => ⟨u.skipBlanks.offset, TokenKind.string.text, ?_⟩
  rw [← rest_skipBlanks hu] at h
  unfold Scanner.string
  dsimp only
  split
  · next body heq => simp [heq] at h
  · rfl

theorem yields_anyOperator {op : BinaryOp} (hmem : op ∈ ops)
    (hself : ' ' ∉ op.spelling.toList ∧ startsWithOperator op.spelling op.spelling.toList)
    (hothers : ∀ op' ∈ ops, op' ≠ op →
      ' ' ∉ op'.spelling.toList ∧ startsWithOperator op'.spelling op.spelling.toList = false) :
    (anyOperator ops).Yields (op.spelling :: ts) op ts := by
  induction ops with
  | nil => cases hmem
  | cons op' ops ih =>
    by_cases heq : op' = op
    · subst heq
      have hop : (do operator op'.spelling; return op').Yields (op'.spelling :: ts) op' ts :=
        (yields_operator hself.1 hself.2).bind yields_pure
      exact hop.orElse (anyOperator ops)
    · obtain ⟨hblank, hrefuses⟩ := hothers op' List.mem_cons_self heq
      have hop : (operator op'.spelling).Refuses (op.spelling :: ts) :=
        refuses_operator ((startsWithOperator_line hblank _ _).trans hrefuses)
      refine Refuses.orElse (hop.bind _) (ih ?_ fun op'' h => hothers op'' (List.mem_cons_of_mem op' h))
      exact (List.mem_cons.mp hmem).resolve_left (Ne.symm heq)

theorem refuses_anyOperator (h : ∀ op ∈ ops, startsWithOperator op.spelling (line ts) = false) :
    (anyOperator ops).Refuses ts := by
  induction ops with
  | nil => exact refuses_fail
  | cons op ops ih =>
    refine Refuses.orElse ((refuses_operator (h op List.mem_cons_self)).bind _) (ih ?_)
    exact fun op' hop' => h op' (List.mem_cons_of_mem op hop')

theorem yields_separated {item : Rule α} {items : List (α × List String)}
    (hitem : ∀ p ∈ items, ∀ rest', rest' = rest ∨ rest'.head? = some "," →
      item.Yields (p.2 ++ rest') p.1 rest')
    (hcomma : startsWithOperator "," (line rest) = false) (hnone : item.Refuses rest) (n : Nat) :
    (separated item n).Yields ([","].intercalate (items.map Prod.snd) ++ rest)
      (items.map Prod.fst) rest := by
  cases items with
  | nil => exact (hnone.attempt).bind yields_pure
  | cons first items =>
    have hhead : ∀ items : List (α × List String),
        (items.map Prod.snd).flatMap ("," :: ·) ++ rest = rest ∨
          ((items.map Prod.snd).flatMap ("," :: ·) ++ rest).head? = some "," := by
      intro items
      cases items with
      | nil => exact .inl rfl
      | cons => exact .inr rfl
    have hmore : ∀ items' : List (α × List String), items' ⊆ items → ∀ n, (many (do
        let start ← mark
        operator ","
        Rule.onFailure start item) n).Yields ((items'.map Prod.snd).flatMap ("," :: ·) ++ rest)
        (items'.map Prod.fst) rest := by
      intro items'
      induction items' with
      | nil =>
        intro _ n
        exact Refuses.many (Leads.mark_bind fun c => (refuses_operator hcomma).bind _) n
      | cons p items' ih =>
        intro hsub n
        have hp := hitem p (List.mem_cons_of_mem first (hsub List.mem_cons_self)) _ (hhead items')
        have hrest := ih (fun q hq => hsub (List.mem_cons_of_mem p hq))
        refine Yields.many (Leads.mark_bind fun c => ?_) hrest n
        rw [List.map_cons, List.flatMap_cons, List.append_assoc, List.cons_append]
        exact (yields_operator (by decide) (by decide)).bind (hp.onFailure c)
    rw [List.map_cons, intercalate_singleton_cons, List.append_assoc]
    refine (hitem first List.mem_cons_self _ (hhead items)).attempt.bind ?_
    exact (hmore items (List.Subset.refl items) n).bind yields_pure

theorem yields_atEnd : (ofTest Scanner.atEnd).Yields [] () [] := by
  intro u hu
  have hrest : u.skipBlanks.cursor.rest = [] := rest_skipBlanks hu
  refine .inr ⟨u.skipBlanks, Scanner.ahead_of_line hrest hu.solid, ?_⟩
  simp [ofTest, Scanner.atEnd, hrest]

end Tokens

end Rule

end LemonScript
