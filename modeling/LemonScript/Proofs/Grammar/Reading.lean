import Mathlib
import LemonScript.Grammar.Rule
import LemonScript.Proofs.Grammar.Surface
/-!
# What rules read

A rule is run in states that stand in a source and remember only what really was found there. This
module says what it means that a rule keeps to such states, moves forward when it matches, and is
never nested too deeply while fewer than `n` characters are ahead; and it proves that every way of
putting rules together keeps this. After each character that is read, one level less is needed.
-/

namespace LemonScript

variable {s : ParseState} {c : Cursor}
variable {offset : Nat} {r : Remembered}

theorem ParseState.remembered?_remember {offset' : Nat} {r' : Remembered}
    (h : (s.remember offset r).remembered? offset' = some r') :
    (offset' = offset ∧ r' = r) ∨ s.remembered? offset' = some r' := by
  cases hmemory : s.memory with
  | none => simp [remembered?, remember, hmemory] at h
  | some =>
    simp only [remembered?, remember, hmemory, Option.map_some, Option.bind_some,
      Std.TreeMap.getElem?_insert] at h ⊢
    split at h
    · next heq =>
      have heq : offset = offset' := by simpa using heq
      exact .inl ⟨heq.symm, (Option.some.inj h).symm⟩
    · exact .inr h

/-- What is remembered about an offset: the node that was found there is a reference, and it ends
behind the offset. -/
structure Remembered.Fits (source : List Char) (offset : Nat) (r : Remembered) : Prop where
  stop_in : r.stop.In source
  le : offset ≤ r.stop.offset
  found : ∀ n, r.node? = some n → offset < r.stop.offset ∧ Surface.Reference n

/-- A state in the middle of a parse of a source. -/
structure ParseState.Sound (source : List Char) (s : ParseState) : Prop where
  scanner : s.scanner.Reads source
  memory : ∀ offset r, s.remembered? offset = some r → r.Fits source offset

namespace ParseState.Sound

variable {source : List Char} {s : ParseState}

theorem cursor_in (h : s.Sound source) : s.cursor.In source := h.scanner.cursor_in

theorem reset (h : s.Sound source) (hc : c.In source) : (s.reset c).Sound source :=
  ⟨h.scanner.reset hc, h.memory⟩

theorem withScanner (h : s.Sound source) {scanner : Scanner} (hs : scanner.Reads source) :
    ParseState.Sound source { s with scanner } :=
  ⟨hs, h.memory⟩

theorem remember (h : s.Sound source) (hr : r.Fits source offset) :
    (s.remember offset r).Sound source := by
  refine ⟨h.scanner, fun offset' r' hr' => ?_⟩
  rcases remembered?_remember hr' with ⟨rfl, rfl⟩ | hr'
  · exact hr
  · exact h.memory offset' r' hr'

end ParseState.Sound

/-- The state is sound, and all nodes that it remembers have `M`. -/
structure ParseState.Keeps (M : Node → Prop) (source : List Char) (s : ParseState) : Prop extends
    s.Sound source where
  nodes : ∀ offset r n, s.remembered? offset = some r → r.node? = some n → M n

namespace ParseState.Keeps

variable {M : Node → Prop} {source : List Char} {s : ParseState}

theorem reset (h : s.Keeps M source) (hc : c.In source) : (s.reset c).Keeps M source :=
  ⟨h.toSound.reset hc, h.nodes⟩

theorem withScanner (h : s.Keeps M source) {scanner : Scanner} (hs : scanner.Reads source) :
    ParseState.Keeps M source { s with scanner } :=
  ⟨h.toSound.withScanner hs, h.nodes⟩

theorem remember (h : s.Keeps M source) (hr : r.Fits source offset) (hM : ∀ n, r.node? = some n → M n) :
    (s.remember offset r).Keeps M source := by
  refine ⟨h.toSound.remember hr, fun offset' r' n hr' hn => ?_⟩
  rcases remembered?_remember hr' with ⟨rfl, rfl⟩ | hr'
  · exact hM n hn
  · exact h.nodes offset' r' n hr' hn

end ParseState.Keeps

theorem ParseState.Sound.keeps {source : List Char} {s : ParseState} (h : s.Sound source) :
    s.Keeps (fun _ => True) source :=
  ⟨h, fun _ _ _ _ _ => trivial⟩

namespace Rule

variable {α β : Type}

/-! ### One rule after another

All that puts rules together goes on in one way behind a match and in another way behind a failure. -/

/-- Runs a rule, and goes on behind its match or behind its failure. -/
def after (r : Rule α) (hit : α → Rule β) (miss : Rule β) : Rule β := fun s =>
  match r s with
  | .matched a s => hit a s
  | .failed s => miss s
  | .aborted reason => .aborted reason

def failTo (c : Cursor) : Rule α := fun s => .failed (s.reset c)

theorem bind_eq_after (r : Rule α) (f : α → Rule β) : (r >>= f) = after r f fail := by
  funext s
  change Rule.bind r f s = _
  unfold Rule.bind Rule.after
  cases r s <;> rfl

theorem orElse_eq_after (r r' : Rule α) : (r <|> r') = after r pure r' := by
  funext s
  change Rule.orElse r (fun _ => r') s = _
  unfold Rule.orElse Rule.after
  cases r s <;> rfl

theorem attempt_eq_after (r : Rule α) : attempt r = after r (fun a => pure (some a)) (pure none) := by
  funext s
  unfold Rule.attempt Rule.after
  cases r s <;> rfl

theorem attempt_bind_eq_after (r : Rule α) (f : Option α → Rule β) :
    (attempt r >>= f) = after r (fun a => f (some a)) (f none) := by
  funext s
  change Rule.bind (attempt r) f s = _
  unfold Rule.bind Rule.attempt Rule.after
  cases r s <;> rfl

theorem onFailure_eq_after (c : Cursor) (r : Rule α) : onFailure c r = after r pure (failTo c) := by
  funext s
  unfold Rule.onFailure Rule.after
  cases r s <;> rfl

theorem many_succ_eq_after (r : Rule α) (n : Nat) :
    many r (n + 1) = after r (fun a => after (many r n) (fun as => pure (a :: as)) fail) (pure []) := by
  funext s
  simp only [Rule.many, Rule.after]
  cases r s with
  | matched a s' =>
    dsimp only
    cases many r n s' <;> rfl
  | _ => rfl

theorem extend_succ_eq_after (r : α → Rule α) (n : Nat) (a : α) :
    extend r (n + 1) a = after (r a) (extend r n) (pure a) := by
  funext s
  simp only [Rule.extend, Rule.after]
  cases r a s <;> rfl

/-! ### How rules end -/

variable {M : Node → Prop} {source : List Char}

/-- The rule was right to end as it did, in a state `s` with fewer than `n` characters ahead: a match
satisfies `P` and lies behind `s`, strictly so if the rule `eats`; a failure is not before `low`. -/
def Ends (M : Node → Prop) (source : List Char) (low : Nat) (eats : Bool) (P : α → Prop) (s : ParseState) :
    Outcome α → Prop
  | .matched a s' => s'.Keeps M source ∧ s.cursor.offset + eats.toNat ≤ s'.cursor.offset ∧ P a
  | .failed s' => s'.Keeps M source ∧ low ≤ s'.cursor.offset
  | .aborted reason => reason ≠ .tooDeep

/-- The rule ends rightly in all states with fewer than `n` characters ahead. It may go back when it
fails, but not to a place before `low`. -/
def ReadsFrom (M : Node → Prop) (source : List Char) (n low : Nat) (eats : Bool) (P : α → Prop)
    (r : Rule α) : Prop :=
  ∀ s : ParseState, s.Keeps M source → low ≤ s.cursor.offset → s.cursor.rest.length < n →
    Ends M source low eats P s (r s)

/-- The rule ends rightly, and a failure is never before the place where it began. -/
def Reads (M : Node → Prop) (source : List Char) (n : Nat) (eats : Bool) (P : α → Prop) (r : Rule α) :
    Prop :=
  ∀ low, ReadsFrom M source n low eats P r

variable {n low : Nat} {eats : Bool} {P : α → Prop} {r : Rule α} {Q : β → Prop} {f : α → Rule β}
variable {eats' : Bool} {a : α} {r' : Rule α} {limit : Nat} {outcome : Outcome α} {s' : ParseState}

theorem rest_lt (h : s.Keeps M source) (h' : s'.Keeps M source) {k : Nat} (hn : s.cursor.rest.length < n)
    (hle : s.cursor.offset + k ≤ s'.cursor.offset) : s'.cursor.rest.length < n - k := by
  have hlength := h.cursor_in.length
  have hlength' := h'.cursor_in.length
  omega

theorem Ends.after {low' : Nat} {hit : α → Rule β} {miss : Rule β} (hr : Ends M source low' eats P s (r s))
    (hhit : ∀ a s', s'.Keeps M source → s.cursor.offset + eats.toNat ≤ s'.cursor.offset → P a →
      Ends M source low eats' Q s (hit a s'))
    (hmiss : ∀ s', s'.Keeps M source → low' ≤ s'.cursor.offset → Ends M source low eats' Q s (miss s')) :
    Ends M source low eats' Q s (after r hit miss s) := by
  unfold Rule.after
  cases hrun : r s with
  | matched a s' =>
    rw [hrun] at hr
    exact hhit a s' hr.1 hr.2.1 hr.2.2
  | failed s' =>
    rw [hrun] at hr
    exact hmiss s' hr.1 hr.2
  | aborted =>
    rw [hrun] at hr
    exact hr

/-- What ends rightly seen from one place does so seen from a place before it. -/
theorem Ends.since (h : Ends M source low eats P s' outcome)
    (hle : s.cursor.offset + eats'.toNat ≤ s'.cursor.offset + eats.toNat) :
    Ends M source low eats' P s outcome := by
  cases outcome with
  | matched a u => exact ⟨h.1, hle.trans h.2.1, h.2.2⟩
  | _ => exact h

/-! ### Weaker statements -/

theorem Ends.imp {low' : Nat} {Q : α → Prop} (h : Ends M source low eats P s outcome) (hlow : low' ≤ low)
    (heats : eats' → eats) (hPQ : ∀ a, P a → Q a) : Ends M source low' eats' Q s outcome := by
  cases outcome with
  | matched a s' =>
    obtain ⟨hs', hle, ha⟩ := h
    refine ⟨hs', ?_, hPQ a ha⟩
    have : eats'.toNat ≤ eats.toNat := by
      cases eats' <;> cases eats <;> simp_all
    omega
  | failed s' => exact ⟨h.1, hlow.trans h.2⟩
  | aborted => exact h

theorem ReadsFrom.imp {Q : α → Prop} (h : ReadsFrom M source n low eats P r) (hPQ : ∀ a, P a → Q a) :
    ReadsFrom M source n low eats Q r :=
  fun s hs hlow hn => (h s hs hlow hn).imp le_rfl id hPQ

theorem Reads.imp {Q : α → Prop} (h : Reads M source n eats P r) (hPQ : ∀ a, P a → Q a) :
    Reads M source n eats Q r :=
  fun low => (h low).imp hPQ

theorem Reads.mono {n' : Nat} (h : Reads M source n eats P r) (hn : n' ≤ n) : Reads M source n' eats P r :=
  fun low s hs hlow hrest => h low s hs hlow (hrest.trans_le hn)

theorem Reads.less (h : Reads M source (n + 1) eats P r) : Reads M source n eats P r :=
  h.mono (Nat.le_succ n)

theorem ReadsFrom.any (h : ReadsFrom M source n low true P r) : ReadsFrom M source n low eats P r :=
  fun s hs hlow hrest => (h s hs hlow hrest).imp le_rfl (fun _ => rfl) fun _ => id

theorem Reads.any (h : Reads M source n true P r) : Reads M source n eats P r :=
  fun low => (h low).any

theorem Reads.zero : Reads M source 0 eats P r :=
  fun _ _ _ _ hn => absurd hn (Nat.not_lt_zero _)

/-! ### Single steps -/

theorem readsFrom_pure (ha : P a) : ReadsFrom M source n low false P (pure a) :=
  fun _ hs _ _ => ⟨hs, le_rfl, ha⟩

theorem readsFrom_fail : ReadsFrom M source n low eats P (fail : Rule α) :=
  fun _ hs hlow _ => ⟨hs, hlow⟩

theorem readsFrom_abort {reason : Abort} (h : reason ≠ .tooDeep) :
    ReadsFrom M source n low eats P (abort reason : Rule α) :=
  fun _ _ _ _ => h

theorem readsFrom_mark :
    ReadsFrom M source n low false (fun c => c.In source ∧ low ≤ c.offset) mark :=
  fun _ hs hlow _ => ⟨hs, le_rfl, hs.cursor_in, hlow⟩

/-- A rule and a second one behind it. What the first one eats the second one need not fear. -/
theorem ReadsFrom.bind (hr : ReadsFrom M source n low eats P r)
    (hf : ∀ a, P a → ReadsFrom M source (n - eats.toNat) low eats' Q (f a)) :
    ReadsFrom M source n low (eats || eats') Q (r >>= f) := by
  intro s hs hlow hn
  rw [bind_eq_after]
  refine (hr s hs hlow hn).after (fun a s' hs' hle ha => ?_) fun s' hs' hle => ⟨hs', hle⟩
  refine (hf a ha s' hs' (by omega) (rest_lt hs hs' hn hle)).since ?_
  have : (eats || eats').toNat ≤ eats.toNat + eats'.toNat := by
    cases eats <;> cases eats' <;> simp
  omega

theorem ReadsFrom.eat (hr : ReadsFrom M source (n + 1) low true P r)
    (hf : ∀ a, P a → ReadsFrom M source n low false Q (f a)) :
    ReadsFrom M source (n + 1) low eats Q (r >>= f) :=
  (hr.bind hf).any

theorem ReadsFrom.next (hr : ReadsFrom M source n low true P r)
    (hf : ∀ a, P a → ReadsFrom M source n low false Q (f a)) :
    ReadsFrom M source n low eats Q (r >>= f) :=
  (hr.bind fun a ha s hs hlow hn => hf a ha s hs hlow (hn.trans_le (Nat.sub_le n _))).any

theorem ReadsFrom.andThen (hr : ReadsFrom M source n low false P r)
    (hf : ∀ a, P a → ReadsFrom M source n low eats Q (f a)) :
    ReadsFrom M source n low eats Q (r >>= f) :=
  hr.bind hf

/-! ### Alternatives and going back -/

theorem ReadsFrom.onFailure (hr : ReadsFrom M source n 0 eats P r) (hc : c.In source ∧ low ≤ c.offset) :
    ReadsFrom M source n low eats P (onFailure c r) := by
  intro s hs hlow hn
  rw [onFailure_eq_after]
  refine (hr s hs (Nat.zero_le _) hn).after (fun a s' hs' hle ha => ⟨hs', hle, ha⟩) fun s' hs' _ => ?_
  exact ⟨hs'.reset hc.1, hc.2⟩

theorem ReadsFrom.rewinding (hr : ReadsFrom M source n 0 eats P r) :
    Reads M source n eats P (rewinding r) :=
  fun _ s hs hlow hn => hr.onFailure ⟨hs.cursor_in, hlow⟩ s hs hlow hn

theorem ReadsFrom.orElse (hr : Reads M source n eats P r) (hr' : ReadsFrom M source n low eats P r') :
    ReadsFrom M source n low eats P (r <|> r') := by
  intro s hs hlow hn
  rw [orElse_eq_after]
  refine (hr s.cursor.offset s hs le_rfl hn).after (fun a s' hs' hle ha => ⟨hs', hle, ha⟩) fun s' hs' hle => ?_
  exact (hr' s' hs' (hlow.trans hle) (rest_lt (k := 0) hs hs' hn hle)).since (Nat.add_le_add_right hle _)

/-- The rule ends rightly in all states that are not before a place, and neither a match nor a failure
is before that place. -/
def ReadsBehind (M : Node → Prop) (source : List Char) (c : Cursor) (eats : Bool) (P : α → Prop)
    (r : Rule α) : Prop :=
  ∀ s : ParseState, s.Keeps M source → c.offset ≤ s.cursor.offset →
    ∀ s₀ : ParseState, s₀.cursor = c → Ends M source c.offset eats P s₀ (r s)

theorem ReadsFrom.behind (hr : ReadsFrom M source n c.offset eats P r) (hc : c.In source)
    (hn : c.rest.length < n) : ReadsBehind M source c eats P r := by
  intro s hs hle s₀ hs₀
  have hrest : s.cursor.rest.length < n := by
    have hlength := hc.length
    have hlength' := hs.cursor_in.length
    omega
  exact (hr s hs hle hrest).since (by rw [hs₀]; omega)

theorem ReadsBehind.orElse (hr : ReadsBehind M source c eats P r)
    (hr' : ReadsBehind M source c eats P r') : ReadsBehind M source c eats P (r <|> r') := by
  intro s hs hle s₀ hs₀
  have hfirst := hr s hs hle s₀ hs₀
  change Ends M source c.offset eats P s₀ (Rule.orElse r (fun _ => r') s)
  unfold Rule.orElse
  cases hrun : r s with
  | failed s' =>
    rw [hrun] at hfirst
    exact hr' s' hfirst.1 hfirst.2 s₀ hs₀
  | _ =>
    rw [hrun] at hfirst
    exact hfirst

theorem Reads.mark_bind {f : Cursor → Rule α}
    (hf : ∀ c : Cursor, c.In source → c.rest.length < n → ReadsBehind M source c eats P (f c)) :
    Reads M source n eats P (mark >>= f) := by
  intro low s hs hlow hn
  exact (hf s.cursor hs.cursor_in hn s hs le_rfl s rfl).imp hlow id fun _ => id

theorem Reads.attempt (hr : Reads M source n true P r) :
    Reads M source n false (fun a => ∀ x, a = some x → P x) (attempt r) := by
  intro low s hs hlow hn
  rw [attempt_eq_after]
  refine (hr s.cursor.offset s hs le_rfl hn).after (fun a s' hs' hle ha => ?_) fun s' hs' hle => ?_
  · exact ⟨hs', Nat.le_of_succ_le hle, fun x hx => Option.some.inj hx ▸ ha⟩
  · exact ⟨hs', hle, by simp⟩

/-- An attempt, and what follows a match or a failure of it. Behind a match one character less is
ahead. -/
theorem Reads.attempt_bind {f : Option α → Rule β} (hr : Reads M source (n + 1) true P r)
    (hsome : ∀ a, P a → ReadsFrom M source n low false Q (f (some a)))
    (hnone : ReadsFrom M source (n + 1) low eats Q (f none)) :
    ReadsFrom M source (n + 1) low eats Q (Rule.attempt r >>= f) := by
  intro s hs hlow hn
  rw [attempt_bind_eq_after]
  refine (hr s.cursor.offset s hs le_rfl hn).after (fun a s' hs' hle ha => ?_) fun s' hs' hle => ?_
  · have heats : eats.toNat ≤ 1 := Bool.toNat_le eats
    have hbehind := (hsome a ha s' hs' (by omega) (rest_lt hs hs' hn hle))
    exact hbehind.since (by simp only [Bool.toNat_false, Bool.toNat_true] at *; omega)
  · have hbehind := hnone s' hs' (hlow.trans hle) (rest_lt (k := 0) hs hs' hn hle)
    exact hbehind.since (Nat.add_le_add_right hle _)

theorem ReadsFrom.mark_attempt_bind {r : Cursor → Rule α} {f : Cursor → Option α → Rule β}
    (hr : ∀ c : Cursor, c.In source → c.rest.length < n → ReadsBehind M source c true P (r c))
    (hf : ∀ c a, (∀ x, a = some x → P x) → ReadsFrom M source n low eats Q (f c a)) :
    ReadsFrom M source n low eats Q (mark >>= fun c => Rule.attempt (r c) >>= f c) := by
  intro s hs hlow hn
  change Ends M source low eats Q s ((Rule.attempt (r s.cursor) >>= f s.cursor) s)
  rw [attempt_bind_eq_after]
  -- whatever the attempt gives, the state behind it is not before `s`
  have hrest : ∀ (a : Option α) (s' : ParseState), s'.Keeps M source → (∀ x, a = some x → P x) →
      s.cursor.offset ≤ s'.cursor.offset → Ends M source low eats Q s (f s.cursor a s') := by
    intro a s' hs' ha hle
    have hbehind := hf s.cursor a ha s' hs' (hlow.trans hle) (rest_lt (k := 0) hs hs' hn hle)
    exact hbehind.since (Nat.add_le_add_right hle _)
  refine (hr s.cursor hs.cursor_in hn s hs le_rfl s rfl).after (fun a s' hs' hle ha => ?_) fun s' hs' hle => ?_
  · exact hrest (some a) s' hs' (fun x hx => Option.some.inj hx ▸ ha) (Nat.le_of_succ_le hle)
  · exact hrest none s' hs' (by simp) hle

theorem Reads.choice {rs : List (Rule α)} (h : ∀ r ∈ rs, ReadsFrom M source n 0 eats P r) :
    Reads M source n eats P (choice rs) := by
  induction rs with
  | nil => exact fun low => readsFrom_fail
  | cons r rs ih =>
    intro low
    exact ReadsFrom.orElse (h r List.mem_cons_self).rewinding
      (ih (fun r' hr' => h r' (List.mem_cons_of_mem r hr')) low)

/-! ### Repetition

A repeated rule eats, so that it is not repeated more often than there are characters ahead. -/

theorem Reads.many (hr : Reads M source n true P r) (hlimit : n ≤ limit) :
    Reads M source n false (fun as => ∀ a ∈ as, P a) (many r limit) := by
  intro low
  induction limit generalizing n with
  | zero =>
    obtain rfl : n = 0 := by omega
    exact Reads.zero low
  | succ limit ih =>
    intro s hs hlow hn
    rw [many_succ_eq_after]
    refine (hr s.cursor.offset s hs le_rfl hn).after (fun a s' hs' hle ha => ?_) fun s' hs' hle => ?_
    · have hrest := ih (n := n - 1) (hr.mono (Nat.sub_le n 1)) (by omega) s' hs' (by omega)
        (rest_lt hs hs' hn hle)
      have hall : Ends M source low false (fun as => ∀ a ∈ as, P a) s'
          (after (Rule.many r limit) (fun as => pure (a :: as)) fail s') := by
        refine hrest.after (fun as u hu hle' has => ?_) fun u hu hle' => ⟨hu, hle'⟩
        exact ⟨hu, hle', List.forall_mem_cons.mpr ⟨ha, has⟩⟩
      exact hall.since (Nat.le_of_succ_le hle)
    · exact ⟨hs', hle, by simp⟩

theorem Reads.extend {r : α → Rule α} (hr : ∀ a, P a → Reads M source n true P (r a))
    (hlimit : n ≤ limit) (ha : P a) : Reads M source n false P (extend r limit a) := by
  intro low
  induction limit generalizing n a with
  | zero =>
    obtain rfl : n = 0 := by omega
    exact Reads.zero low
  | succ limit ih =>
    intro s hs hlow hn
    rw [extend_succ_eq_after]
    refine (hr a ha s.cursor.offset s hs le_rfl hn).after (fun b s' hs' hle hb => ?_) fun s' hs' hle => ?_
    · have hrest := ih (n := n - 1) (fun b hb => (hr b hb).mono (Nat.sub_le n 1)) (by omega) hb s' hs'
        (by omega) (rest_lt hs hs' hn hle)
      exact hrest.since (Nat.le_of_succ_le hle)
    · exact ⟨hs', hle, ha⟩

end Rule

end LemonScript
