import LemonScript.Proofs.Semantics.Simulation
/-!
# Steps that follow each other

A step on the right follows one on the left if it ends normally whenever the other one does, with a
result that is related to the other's. Steps that follow each other can be put one after another,
and the operations on memory, arrays and maps follow themselves.
-/

namespace LemonScript

namespace Semantics

variable {α β γ α' β' : Type}

/-- The right step ends normally if the left one does, with related results in linked states. -/
def Follows (σ : Setting) (ρ : Links) (m : Run α) (m' : Run β) (Q : Links → α → β → Prop) : Prop :=
  ∀ ⦃ρ₀ : Links⦄ ⦃s s' t : State⦄ ⦃x : α⦄, ρ ≤ ρ₀ → StateRel σ ρ₀ s s' → m s = .ok (x, t) →
    ∃ y t' ρ₁, m' s' = .ok (y, t') ∧ ρ₀ ≤ ρ₁ ∧ StateRel σ ρ₁ t t' ∧ Q ρ₁ x y

def Anything : Links → α → β → Prop := fun _ _ _ => True

variable {m : Run α} {s t : State} {y : β} {x : α} {a : Address} {c : Cell} {v : Value}
variable {f : α → Run β}

theorem bind_eq_ok (h : (m >>= f) s = .ok (y, t)) :
    ∃ x u, m s = .ok (x, u) ∧ f x u = .ok (y, t) := by
  change (m s >>= fun p => f p.1 p.2) = _ at h
  cases hm : m s with
  | error e =>
    rw [hm] at h
    exact absurd h (by simp [bind, Except.bind])
  | ok p =>
    rw [hm] at h
    exact ⟨p.1, p.2, rfl, h⟩

theorem bind_of_ok (h : m s = .ok (x, t)) : (m >>= f) s = f x t := by
  change (m s >>= fun p => f p.1 p.2) = _
  rw [h]
  rfl

theorem pure_eq_ok {y : α} (h : (pure x : Run α) s = .ok (y, t)) : y = x ∧ t = s := by
  cases h
  exact ⟨rfl, rfl⟩

theorem cellAt_eq_ok (h : cellAt a s = .ok (c, t)) : s.memory[a]? = some c ∧ t = s := by
  unfold cellAt at h
  split at h
  · next hc =>
    cases h
    exact ⟨hc, rfl⟩
  · cases h

theorem readVar_eq_ok (h : readVar a s = .ok (v, t)) : s.memory[a]? = some (.var v) ∧ t = s := by
  obtain ⟨c, u, hc, h⟩ := bind_eq_ok h
  obtain ⟨hcell, rfl⟩ := cellAt_eq_ok hc
  cases c with
  | var w =>
    cases h
    exact ⟨hcell, rfl⟩
  | _ => cases h

theorem writeVar_eq_ok {x : Unit} (h : writeVar a v s = .ok (x, t)) :
    t = { s with memory := s.memory.set a (.var v) } := by
  obtain ⟨c, u, hc, h⟩ := bind_eq_ok h
  obtain ⟨-, rfl⟩ := cellAt_eq_ok hc
  cases c with
  | var _ =>
    cases h
    rfl
  | _ => cases h

namespace Follows

variable {σ : Setting} {ρ : Links} {m : Run α} {m' : Run β} {f : α → Run α'} {f' : β → Run β'}
  {P : Links → α → β → Prop} {Q : Links → α' → β' → Prop}

theorem mono {ρ' : Links} (h : Follows σ ρ m m' P) (hle : ρ ≤ ρ') : Follows σ ρ' m m' P :=
  fun _ _ _ _ _ hle' hs hm => h (hle.trans hle') hs hm

theorem imp {P' : Links → α → β → Prop} (h : Follows σ ρ m m' P)
    (himp : ∀ ρ' x y, ρ ≤ ρ' → P ρ' x y → P' ρ' x y) : Follows σ ρ m m' P' := by
  intro ρ₀ s s' t x hle hs hm
  obtain ⟨y, t', ρ₁, hm', hle', ht, hP⟩ := h hle hs hm
  exact ⟨y, t', ρ₁, hm', hle', ht, himp ρ₁ x y (hle.trans hle') hP⟩

theorem pure (h : ∀ ρ', ρ ≤ ρ' → P ρ' x y) : Follows σ ρ (Pure.pure x) (Pure.pure y) P := by
  intro ρ₀ s s' t x' hle hs hm
  obtain ⟨rfl, rfl⟩ := pure_eq_ok hm
  exact ⟨y, s', ρ₀, rfl, le_rfl, hs, h ρ₀ hle⟩

theorem stop {reason : Stop} : Follows σ ρ (Semantics.stop reason) m' P := by
  intro ρ₀ s s' t x hle hs hm
  cases hm

theorem of_ne_ok (h : ∀ s t x, m s ≠ .ok (x, t)) : Follows σ ρ m m' P := by
  intro ρ₀ s s' t x hle hs hm
  exact absurd hm (h s t x)

theorem bind (h : Follows σ ρ m m' P)
    (hf : ∀ ρ' x y, ρ ≤ ρ' → P ρ' x y → Follows σ ρ' (f x) (f' y) Q) :
    Follows σ ρ (m >>= f) (m' >>= f') Q := by
  intro ρ₀ s s' t x hle hs hm
  obtain ⟨a, u, hma, hfa⟩ := bind_eq_ok hm
  obtain ⟨b, u', ρ₁, hmb, hle₁, hu, hP⟩ := h hle hs hma
  obtain ⟨y, t', ρ₂, hfb, hle₂, ht, hQ⟩ := hf ρ₁ a b (hle.trans hle₁) hP le_rfl hu hfa
  exact ⟨y, t', ρ₂, (bind_of_ok hmb).trans hfb, hle₁.trans hle₂, ht, hQ⟩

theorem bind_left {m'' : Run β'} (h : Follows σ ρ m (Pure.pure y : Run β) P)
    (hf : ∀ ρ' x, ρ ≤ ρ' → P ρ' x y → Follows σ ρ' (f x) m'' Q) : Follows σ ρ (m >>= f) m'' Q := by
  intro ρ₀ s s' t x hle hs hm
  obtain ⟨a, u, hma, hfa⟩ := bind_eq_ok hm
  obtain ⟨b, u', ρ₁, hmb, hle₁, hu, hP⟩ := h hle hs hma
  obtain ⟨rfl, rfl⟩ := pure_eq_ok hmb
  obtain ⟨y, t', ρ₂, hfb, hle₂, ht, hQ⟩ := hf ρ₁ a (hle.trans hle₁) hP le_rfl hu hfa
  exact ⟨y, t', ρ₂, hfb, hle₁.trans hle₂, ht, hQ⟩

theorem bind_done {Q : Links → α' → β → Prop} (h : Follows σ ρ m m' P)
    (hf : ∀ ρ' x y, ρ ≤ ρ' → P ρ' x y → Follows σ ρ' (f x) (Pure.pure y : Run β) Q) :
    Follows σ ρ (m >>= f) m' Q := by
  have hbind : Follows σ ρ (m >>= f) (m' >>= Pure.pure) Q := h.bind hf
  rwa [bind_pure] at hbind

theorem and_left {K : α → Prop} (h : Follows σ ρ m m' P)
    (hk : ∀ {s t x}, m s = .ok (x, t) → K x) :
    Follows σ ρ m m' fun ρ' x y => P ρ' x y ∧ K x := by
  intro ρ₀ s s' t x hle hs hm
  obtain ⟨y, t', ρ₁, hm', hle', ht, hP⟩ := h hle hs hm
  exact ⟨y, t', ρ₁, hm', hle', ht, hP, hk hm⟩

theorem of_oneToOne (h : ∀ ρ', ρ ≤ ρ' → ρ'.OneToOne → Follows σ ρ' m m' P) :
    Follows σ ρ m m' P := by
  intro ρ₀ s s' t x hle hs hm
  exact h ρ₀ hle hs.oneToOne le_rfl hs hm

theorem trans {m'' : Run γ} {P' : Links → β → γ → Prop} {Q : Links → α → γ → Prop}
    (h : Follows σ ρ m m' P) (h' : Follows ⟨Same, noPins⟩ ρ.diagonal m' m'' P')
    (hcomp : ∀ ρ' τ x y z, P ρ' x y → P' τ y z → Q (ρ'.comp τ) x z) : Follows σ ρ m m'' Q := by
  intro ρ₀ s s' t x hle hs hm
  obtain ⟨y, t', ρ₁, hm', hle₁, ht, hP⟩ := h hle hs hm
  obtain ⟨z, t'', τ, hm'', hle₂, ht', hP'⟩ := h' (Links.diagonal_mono hle) hs.self hm'
  refine ⟨z, t'', ρ₁.comp τ, hm'', ?_, ht.comp ht', hcomp ρ₁ τ x y z hP hP'⟩
  refine ⟨?_, hle₂.2⟩
  intro a b hab
  exact ⟨b, hle₁.1 a b hab, hle₂.1 b b ⟨hs.closed_right hab, rfl⟩⟩

end Follows

/-! ### Memory -/

section Steps

variable {σ : Setting} {ρ : Links}
variable {b : Address} {env env' : Env} {v' x' k k' : Value} {op : BinaryOp}
  {es es' : List (Value × Value)}
variable {c' : Cell} {xs xs' : List Value} {s' : State}

theorem follows_cellAt (h : ρ.rel a b) : Follows σ ρ (cellAt a) (cellAt b) (CellRel σ.codes) := by
  intro ρ₀ s s' t x hle hs hm
  obtain ⟨c, c', ha, hb, hcell⟩ := hs.cells (hle.1 a b h)
  simp only [cellAt, ha] at hm
  cases hm
  exact ⟨c', s', ρ₀, by simp only [cellAt, hb], le_rfl, hs, hcell⟩

theorem follows_store (h : ρ.rel a b) (hcell : CellRel σ.codes ρ c c') :
    Follows σ ρ (store a c) (store b c') Anything := by
  intro ρ₀ s s' t x hle hs hm
  cases hm
  exact ⟨(), _, ρ₀, rfl, le_rfl, hs.store (hle.1 a b h) (hcell.mono hle), trivial⟩

theorem follows_allocate (h : CellRel σ.codes ρ c c') :
    Follows σ ρ (allocate c) (allocate c') (fun ρ' a b => ρ'.rel a b) := by
  intro ρ₀ s s' t x hle hs hm
  cases hm
  have hlink := ρ₀.le_link s.memory.length s'.memory.length
  exact ⟨_, _, _, rfl, hlink, hs.allocate (h.mono (hle.trans hlink)), .inr ⟨rfl, rfl⟩⟩

theorem EnvRel.cons (h : EnvRel ρ env env') (x : Int) (hab : ρ.rel a b) (hb : ρ.closed b) :
    EnvRel ρ ((x, a) :: env) ((x, b) :: env') where
  lookup := by
    intro y c hy
    by_cases hyx : y = x
    · subst hyx
      rw [List.lookup_cons_self] at hy ⊢
      cases hy
      exact ⟨b, rfl, hab⟩
    · have hne : (y == x) = false := by simpa using hyx
      rw [List.lookup_cons, hne] at hy ⊢
      exact h.lookup hy
  closed := by
    intro y c hy
    rcases List.mem_cons.mp hy with hy | hy
    · cases hy
      exact hb
    · exact h.closed hy

theorem follows_allocateFunction {code code' : Code} (hid : code.id = code'.id)
    (hcode : ∀ a, σ.codes code ((code.id, a) :: env) code') (henv : EnvRel ρ env env') :
    Follows σ ρ (allocateFunction code env) (allocateFunction code' env') EnvRel := by
  intro ρ₀ s s' t x hle hs hm
  cases hm
  have hlink := ρ₀.le_link s.memory.length s'.memory.length
  have hnew : EnvRel (ρ₀.link s.memory.length s'.memory.length)
      ((code.id, s.memory.length) :: env) ((code'.id, s'.memory.length) :: env') := by
    rw [← hid]
    exact (henv.mono (hle.trans hlink)).cons _ (.inr ⟨rfl, rfl⟩) (.inr rfl)
  exact ⟨_, _, _, rfl, hlink, hs.allocate (.closure hid (hcode _) hnew), hnew⟩

theorem Follows.of_closed {m' : Run β} {P : Links → α → β → Prop} (hab : ρ.rel a b)
    (h : ∀ ρ', ρ ≤ ρ' → ρ'.closed b → Follows σ ρ' m m' P) : Follows σ ρ m m' P := by
  intro ρ₀ s s' t x hle hs hm
  exact h ρ₀ hle (hs.closed_right (hle.1 a b hab)) le_rfl hs hm

theorem follows_addressOf (henv : EnvRel ρ env env') (x : Int) :
    Follows σ ρ (addressOf env x) (addressOf env' x) (fun ρ' a b => ρ'.rel a b) := by
  unfold addressOf
  split
  · exact .stop
  · split
    · next a ha =>
      obtain ⟨b, hb, hab⟩ := henv.lookup ha
      rw [hb]
      exact .pure fun ρ' hle => hle.1 a b hab
    · exact .stop

theorem follows_readVar (h : ρ.rel a b) : Follows σ ρ (readVar a) (readVar b) ValueRel := by
  unfold readVar
  refine (follows_cellAt h).bind ?_
  intro ρ' c c' hle hcell
  cases hcell with
  | var hv => exact .pure fun _ hle => hv.mono hle
  | _ => exact .stop

theorem follows_writeVar (h : ρ.rel a b) (hv : ValueRel ρ v v') :
    Follows σ ρ (writeVar a v) (writeVar b v') Anything := by
  unfold writeVar
  refine (follows_cellAt h).bind ?_
  intro ρ' c c' hle hcell
  cases hcell with
  | var _ => exact follows_store (hle.1 a b h) (.var (hv.mono hle))
  | _ => exact .stop

theorem follows_functionAt (h : ρ.rel a b) :
    Follows σ ρ (functionAt a) (functionAt b) ValueRel := by
  unfold functionAt
  refine (follows_cellAt h).bind ?_
  intro ρ' c c' hle hcell
  cases hcell with
  | closure => exact .pure fun _ hle' => .ref (hle'.1 a b (hle.1 a b h))
  | _ => exact .stop

theorem follows_bindAll : ∀ {ρ : Links} (ids : List Int) {vs vs' : List Value} {env env' : Env},
    List.Forall₂ (ValueRel ρ) vs vs' → EnvRel ρ env env' →
    Follows σ ρ (bindAll ids vs env) (bindAll ids vs' env') EnvRel
  | _, [], _, _, _, _, .nil, henv => .pure fun _ hle => henv.mono hle
  | _, _ :: _, _, _, _, _, .nil, _ => .stop
  | _, [], _, _, _, _, .cons _ _, _ => .stop
  | _, id :: ids, _, _, _, _, .cons hv hvs, henv => by
    refine (follows_allocate (.var hv)).bind ?_
    intro ρ' a b hle hab
    refine .of_closed hab ?_
    intro ρ'' hle' hb
    have hle'' := hle.trans hle'
    exact follows_bindAll ids (ValueRel.mono_all hle'' hvs)
      ((henv.mono hle'').cons id (hle'.1 a b hab) hb)

/-! ### Operators -/

theorem follows_truth (h : ValueRel ρ v v') :
    Follows σ ρ (truth v) (truth v') (fun _ b b' => b = b') := by
  cases h with
  | bool b => exact .pure fun _ _ => rfl
  | _ => exact .stop

theorem ValueRel.isUnset_eq (h : ValueRel ρ v v') : isUnset v = isUnset v' := by
  cases h <;> rfl

theorem ValueRel.same_eq (hρ : ρ.OneToOne) {w w' : Value} (hv : ValueRel ρ v v')
    (hw : ValueRel ρ w w') : same v w = same v' w' := by
  cases hv with
  | ref hab =>
    cases hw with
    | ref hcd =>
      simp only [same, beq_eq_beq]
      constructor
      · rintro rfl
        exact hρ.right hab hcd
      · rintro rfl
        exact hρ.left hab hcd
    | _ => rfl
  | _ => cases hw <;> rfl

theorem follows_orFault {x x' : Option Value}
    (h : ∀ v, x = some v → ∃ v', x' = some v' ∧ ValueRel ρ v v') :
    Follows σ ρ (orFault x) (orFault x') ValueRel := by
  cases x with
  | none => exact .stop
  | some v =>
    obtain ⟨v', rfl, hv⟩ := h v rfl
    exact .pure fun _ hle => hv.mono hle

theorem valueRel_of_onInts {l r : Int} (h : onInts op l r = some v) : ValueRel ρ v v := by
  unfold onInts at h
  split at h <;> (try split at h) <;> cases h <;> constructor

theorem valueRel_of_onFloats {l r : Float} (h : onFloats op l r = some v) : ValueRel ρ v v := by
  unfold onFloats at h
  split at h <;> cases h <;> constructor

theorem valueRel_of_onStrings {l r : String} (h : onStrings op l r = some v) : ValueRel ρ v v := by
  unfold onStrings at h
  split at h <;> cases h <;> constructor

theorem follows_operate (op : BinaryOp) {x y y' : Value} (hx : ValueRel ρ x x')
    (hy : ValueRel ρ y y') :
    Follows σ ρ (orFault (operate op x y)) (orFault (operate op x' y')) ValueRel := by
  refine .of_oneToOne ?_
  intro ρ' hle hone
  refine follows_orFault ?_
  intro v hv
  unfold operate at hv ⊢
  rw [← hx.isUnset_eq, ← hy.isUnset_eq, ← (hx.mono hle).same_eq hone (hy.mono hle)]
  split at hv
  · split at hv
    · cases hv
    · next hset =>
      cases hv
      exact ⟨_, if_neg hset, .bool _⟩
  · split at hv
    · cases hv
    · next hset =>
      cases hv
      exact ⟨_, if_neg hset, .bool _⟩
  · split at hv
    · cases hx
      cases hy
      exact ⟨v, hv, valueRel_of_onInts hv⟩
    · cases hx
      cases hy
      exact ⟨v, hv, valueRel_of_onFloats hv⟩
    · cases hx
      cases hy
      exact ⟨v, hv, valueRel_of_onStrings hv⟩
    · cases hv

theorem follows_operateUnary (op : UnaryOp) {x : Value} (hx : ValueRel ρ x x') :
    Follows σ ρ (orFault (operateUnary op x)) (orFault (operateUnary op x')) ValueRel := by
  refine follows_orFault ?_
  intro v hv
  unfold operateUnary at hv
  split at hv <;> cases hv <;> cases hx <;> exact ⟨_, rfl, by constructor⟩

theorem follows_stepped (op : UnaryOp) {x : Value} (hx : ValueRel ρ x x') :
    Follows σ ρ (orFault (stepped op x)) (orFault (stepped op x')) ValueRel := by
  refine follows_orFault ?_
  intro v hv
  unfold stepped at hv
  split at hv <;> cases hv <;> cases hx <;> exact ⟨_, rfl, by constructor⟩

/-! ### Arrays and maps -/

theorem valueRel_getD (h : List.Forall₂ (ValueRel ρ) xs xs') (i : Nat) :
    ValueRel ρ (xs.getD i .unset) (xs'.getD i .unset) := by
  induction h generalizing i with
  | nil => exact .unset
  | cons hx _ ih =>
    cases i with
    | zero => exact hx
    | succ i => exact ih i

theorem forall₂_setAt (h : List.Forall₂ (ValueRel ρ) xs xs') (i : Nat) (hv : ValueRel ρ v v') :
    List.Forall₂ (ValueRel ρ) (setAt xs i v) (setAt xs' i v') := by
  unfold setAt
  rw [← h.length_eq]
  split
  · clear * - h hv
    induction h generalizing i with
    | nil => exact .nil
    | cons hx hxs ih =>
      cases i with
      | zero => exact .cons hv hxs
      | succ i => exact .cons hx (ih i)
  · have hpad : ∀ n, List.Forall₂ (ValueRel ρ) (List.replicate n .unset) (List.replicate n .unset) := by
      intro n
      induction n with
      | zero => exact .nil
      | succ n ih => exact .cons .unset ih
    exact List.rel_append (List.rel_append h (hpad _)) (.cons hv .nil)

theorem valueRel_valueAt (hρ : ρ.OneToOne) (hk : ValueRel ρ k k')
    (h : List.Forall₂ (EntryRel ρ) es es') : ValueRel ρ (valueAt k es) (valueAt k' es') := by
  induction h with
  | nil => exact .unset
  | cons he _ ih =>
    simp only [valueAt]
    rw [he.1.same_eq hρ hk]
    split
    · exact he.2
    · exact ih

theorem forall₂_insertAt (hρ : ρ.OneToOne) (hk : ValueRel ρ k k') (hv : ValueRel ρ v v')
    (h : List.Forall₂ (EntryRel ρ) es es') :
    List.Forall₂ (EntryRel ρ) (insertAt k v es) (insertAt k' v' es') := by
  induction h with
  | nil => exact .cons ⟨hk, hv⟩ .nil
  | cons he hes ih =>
    simp only [insertAt]
    rw [he.1.same_eq hρ hk]
    split
    · exact .cons ⟨he.1, hv⟩ hes
    · exact .cons he ih

theorem forall₂_mapOf (hρ : ρ.OneToOne) (h : List.Forall₂ (EntryRel ρ) es es') :
    List.Forall₂ (EntryRel ρ) (mapOf es) (mapOf es') := by
  have hfold : ∀ {done done'}, List.Forall₂ (EntryRel ρ) done done' →
      List.Forall₂ (EntryRel ρ) (es.foldl (fun es e => insertAt e.1 e.2 es) done)
        (es'.foldl (fun es e => insertAt e.1 e.2 es) done') := by
    induction h with
    | nil => exact fun hdone => hdone
    | cons he _ ih => exact fun hdone => ih (forall₂_insertAt hρ he.1 he.2 hdone)
  exact hfold .nil

theorem follows_elementOf {x : Value} (hx : ValueRel ρ x x') (i : Int) :
    Follows σ ρ (elementOf x i) (elementOf x' i) ValueRel := by
  cases hx with
  | ref hab =>
    refine (follows_cellAt hab).bind ?_
    intro ρ' c c' hle hcell
    cases hcell with
    | array hxs =>
      dsimp only
      split
      · exact .stop
      · exact .pure fun _ hle => (valueRel_getD hxs _).mono hle
    | _ => exact .stop
  | _ => exact .stop

theorem follows_setElement {x : Value} (hx : ValueRel ρ x x') (i : Int) (hv : ValueRel ρ v v') :
    Follows σ ρ (setElement x i v) (setElement x' i v') Anything := by
  cases hx with
  | ref hab =>
    refine (follows_cellAt hab).bind ?_
    intro ρ' c c' hle hcell
    cases hcell with
    | array hxs =>
      dsimp only
      split
      · exact .stop
      · exact follows_store (hle.1 _ _ hab) (.array (forall₂_setAt hxs _ (hv.mono hle)))
    | _ => exact .stop
  | _ => exact .stop

theorem follows_entryOf {x : Value} (hx : ValueRel ρ x x') (hk : ValueRel ρ k k') :
    Follows σ ρ (entryOf x k) (entryOf x' k') ValueRel := by
  cases hx with
  | ref hab =>
    refine (follows_cellAt hab).bind ?_
    intro ρ' c c' hle hcell
    cases hcell with
    | map hes =>
      refine .of_oneToOne ?_
      intro ρ'' hle' hone
      refine .pure fun _ hle'' => ValueRel.mono hle'' ?_
      exact valueRel_valueAt hone (hk.mono (hle.trans hle')) (hes.imp fun _ _ => EntryRel.mono hle')
    | _ => exact .stop
  | _ => exact .stop

theorem follows_setEntry {x : Value} (hx : ValueRel ρ x x') (hk : ValueRel ρ k k')
    (hv : ValueRel ρ v v') : Follows σ ρ (setEntry x k v) (setEntry x' k' v') Anything := by
  cases hx with
  | ref hab =>
    refine (follows_cellAt hab).bind ?_
    intro ρ' c c' hle hcell
    cases hcell with
    | map hes =>
      refine .of_oneToOne ?_
      intro ρ'' hle' hone
      have hle'' := hle.trans hle'
      refine follows_store (hle''.1 _ _ hab) (.map ?_)
      exact forall₂_insertAt hone (hk.mono hle'') (hv.mono hle'') (hes.imp fun _ _ => EntryRel.mono hle')
    | _ => exact .stop
  | _ => exact .stop

/-! ### The library -/

theorem mapM_eq {f f' : α → Option β} {R : α → α → Prop} (h : ∀ x x', R x x' → f x = f' x')
    {xs xs' : List α} (hxs : List.Forall₂ R xs xs') : xs.mapM f = xs'.mapM f' := by
  induction hxs with
  | nil => rfl
  | cons hx _ ih => rw [List.mapM_cons, List.mapM_cons, h _ _ hx, ih]

theorem StateRel.picture_eq (hs : StateRel σ ρ s s') (depth : Nat) (hv : ValueRel ρ v v') :
    picture s.memory depth v = picture s'.memory depth v' := by
  induction depth generalizing v v' with
  | zero => cases hv <;> rfl
  | succ depth ih =>
    cases hv with
    | ref hab =>
      obtain ⟨c, c', ha, hb, hcell⟩ := hs.cells hab
      simp only [picture, ha, hb]
      cases hcell with
      | var _ => rfl
      | array hxs =>
        dsimp only
        rw [mapM_eq (R := ValueRel ρ) (fun _ _ hx => ih hx) hxs]
      | map hes =>
        dsimp only
        rw [mapM_eq (R := EntryRel ρ) (fun e e' he => ?_) hes]
        rw [pairOf, pairOf, ih he.1, ih he.2]
      | closure hid _ _ =>
        dsimp only
        rw [hid]
    | _ => rfl

theorem StateRel.kindOf_eq (hs : StateRel σ ρ s s') (hv : ValueRel ρ v v') :
    kindOf s.memory v = kindOf s'.memory v' := by
  cases hv with
  | ref hab =>
    obtain ⟨c, c', ha, hb, hcell⟩ := hs.cells hab
    simp only [kindOf, ha, hb]
    cases hcell <;> rfl
  | _ => rfl

theorem follows_libraryCall (depth : Nat) (id : Int) {vs vs' : List Value}
    (hvs : List.Forall₂ (ValueRel ρ) vs vs') :
    Follows σ ρ (libraryCall depth id vs) (libraryCall depth id vs') ValueRel := by
  intro ρ₀ s s' t x hle hs hm
  match vs, vs', hvs with
  | [v], [v'], .cons hv .nil =>
    have hv := hv.mono hle
    simp only [libraryCall] at hm ⊢
    rw [← hs.picture_eq depth hv, ← hs.kindOf_eq hv]
    by_cases hpour : (id == Library.pour.id) = true
    · rw [if_pos hpour] at hm ⊢
      cases hp : picture s.memory depth v with
      | none =>
        rw [hp] at hm
        cases hm
      | some p =>
        rw [hp] at hm
        cases hm
        exact ⟨_, _, ρ₀, rfl, le_rfl, hs.print p, .unset⟩
    rw [if_neg hpour] at hm ⊢
    by_cases hspecies : (id == Library.species.id) = true
    · rw [if_pos hspecies] at hm ⊢
      cases hm
      exact ⟨_, _, ρ₀, rfl, le_rfl, hs, .string _⟩
    · rw [if_neg hspecies] at hm
      cases hm
  | [], [], .nil => cases hm
  | _ :: _ :: _, _ :: _ :: _, .cons _ (.cons _ _) => cases hm

end Steps

end Semantics

end LemonScript
