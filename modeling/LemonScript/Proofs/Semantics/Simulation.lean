import LemonScript.Proofs.Semantics.Execution
/-!
# Runs that follow each other

Two runs are compared whose memories need not be laid out alike: one of them may have cells that the
other one lacks. What the two memories share is given by links between their cells, and links are
only added while the runs go on. A run follows another one if it ends normally whenever the other
one does, in a state that is linked to the other's.
-/

namespace LemonScript

namespace Semantics

/-! ### Links -/

/-- Which cells of two memories stand for each other. -/
structure Links where
  rel : Address → Address → Prop
  /-- The cells on the right that refer to nothing but such cells. -/
  closed : Address → Prop

variable {ρ : Links} {v : Value} {env env' : Env} {c c' : Cell} {a : Address}

namespace Links

instance : Preorder Links where
  le ρ ρ' := (∀ a b, ρ.rel a b → ρ'.rel a b) ∧ ∀ b, ρ.closed b → ρ'.closed b
  le_refl _ := ⟨fun _ _ h => h, fun _ h => h⟩
  le_trans _ _ _ h h' := ⟨fun a b hab => h'.1 a b (h.1 a b hab), fun b hb => h'.2 b (h.2 b hb)⟩

def link (ρ : Links) (a b : Address) : Links where
  rel x y := ρ.rel x y ∨ (x = a ∧ y = b)
  closed y := ρ.closed y ∨ y = b

/-- The cells on the right, each with itself. -/
def diagonal (ρ : Links) : Links where
  rel x y := ρ.closed x ∧ y = x
  closed := ρ.closed

def comp (ρ τ : Links) : Links where
  rel x z := ∃ y, ρ.rel x y ∧ τ.rel y z
  closed := τ.closed

/-- Every cell has at most one partner. -/
structure OneToOne (ρ : Links) : Prop where
  right {a b b' : Address} : ρ.rel a b → ρ.rel a b' → b = b'
  left {a a' b : Address} : ρ.rel a b → ρ.rel a' b → a = a'

theorem le_link (ρ : Links) (a b : Address) : ρ ≤ ρ.link a b :=
  ⟨fun _ _ h => .inl h, fun _ h => .inl h⟩

theorem diagonal_mono {ρ' : Links} (h : ρ ≤ ρ') : ρ.diagonal ≤ ρ'.diagonal :=
  ⟨fun a _ hab => ⟨h.2 a hab.1, hab.2⟩, h.2⟩

theorem oneToOne_diagonal (ρ : Links) : ρ.diagonal.OneToOne where
  right h h' := by rw [h.2, h'.2]
  left h h' := by rw [← h.2, ← h'.2]

theorem OneToOne.comp {τ : Links} (h : ρ.OneToOne) (h' : τ.OneToOne) : (ρ.comp τ).OneToOne where
  right := by
    rintro a c c' ⟨b, hab, hbc⟩ ⟨b', hab', hbc'⟩
    obtain rfl := h.right hab hab'
    exact h'.right hbc hbc'
  left := by
    rintro a a' c ⟨b, hab, hbc⟩ ⟨b', hab', hbc'⟩
    obtain rfl := h'.left hbc hbc'
    exact h.left hab hab'

end Links

/-! ### What linked memories hold -/

inductive ValueRel (ρ : Links) : Value → Value → Prop
  | unset : ValueRel ρ .unset .unset
  | int (n : Int) : ValueRel ρ (.int n) (.int n)
  | float (x : Float) : ValueRel ρ (.float x) (.float x)
  | string (text : String) : ValueRel ρ (.string text) (.string text)
  | bool (b : Bool) : ValueRel ρ (.bool b) (.bool b)
  | library (id : Int) : ValueRel ρ (.library id) (.library id)
  | ref {a b : Address} (h : ρ.rel a b) : ValueRel ρ (.ref a) (.ref b)

def EntryRel (ρ : Links) (e e' : Value × Value) : Prop :=
  ValueRel ρ e.1 e'.1 ∧ ValueRel ρ e.2 e'.2

/-- All that is declared on the left is declared on the right. -/
structure EnvRel (ρ : Links) (env env' : Env) : Prop where
  lookup {x : Int} {a : Address} : env.lookup x = some a → ∃ b, env'.lookup x = some b ∧ ρ.rel a b
  closed {x : Int} {b : Address} : (x, b) ∈ env' → ρ.closed b

/-- When one function can stand for another one, which was declared in an environment. -/
abbrev Codes := Code → Env → Code → Prop

inductive CellRel (R : Codes) (ρ : Links) : Cell → Cell → Prop
  | var {v v' : Value} (h : ValueRel ρ v v') : CellRel R ρ (.var v) (.var v')
  | array {xs xs' : List Value} (h : List.Forall₂ (ValueRel ρ) xs xs') :
    CellRel R ρ (.array xs) (.array xs')
  | map {es es' : List (Value × Value)} (h : List.Forall₂ (EntryRel ρ) es es') :
    CellRel R ρ (.map es) (.map es')
  | closure {code code' : Code} {env env' : Env} (hid : code.id = code'.id) (hcode : R code env code')
      (henv : EnvRel ρ env env') : CellRel R ρ (.closure code env) (.closure code' env')

def Same : Codes := fun code _ code' => code = code'

variable {R : Codes}

section Mono

variable {ρ ρ' : Links} (h : ρ ≤ ρ')

include h

theorem ValueRel.mono {v' : Value} (hv : ValueRel ρ v v') : ValueRel ρ' v v' := by
  cases hv with
  | ref hab => exact .ref (h.1 _ _ hab)
  | _ => constructor

theorem EntryRel.mono {e e' : Value × Value} (he : EntryRel ρ e e') : EntryRel ρ' e e' :=
  ⟨he.1.mono h, he.2.mono h⟩

theorem ValueRel.mono_all {vs vs' : List Value} (hvs : List.Forall₂ (ValueRel ρ) vs vs') :
    List.Forall₂ (ValueRel ρ') vs vs' :=
  hvs.imp fun _ _ => ValueRel.mono h

theorem EnvRel.mono (henv : EnvRel ρ env env') : EnvRel ρ' env env' where
  lookup hx := by
    obtain ⟨b, hb, hab⟩ := henv.lookup hx
    exact ⟨b, hb, h.1 _ _ hab⟩
  closed hb := h.2 _ (henv.closed hb)

theorem CellRel.mono (hc : CellRel R ρ c c') : CellRel R ρ' c c' := by
  cases hc with
  | var hv => exact .var (hv.mono h)
  | array hxs => exact .array (ValueRel.mono_all h hxs)
  | map hes => exact .map (hes.imp fun _ _ => EntryRel.mono h)
  | closure hid hcode henv => exact .closure hid hcode (henv.mono h)

end Mono

theorem ValueRel.self (hclosed : ∀ {a b}, ρ.rel a b → ρ.closed b) {v' : Value} (h : ValueRel ρ v v') :
    ValueRel ρ.diagonal v' v' := by
  cases h with
  | ref hab => exact .ref ⟨hclosed hab, rfl⟩
  | _ => constructor

theorem mem_of_lookup {x : Int} (h : env.lookup x = some a) : (x, a) ∈ env := by
  obtain ⟨before, after, rfl, -⟩ := List.lookup_eq_some_iff.mp h
  simp

theorem EnvRel.self (h : EnvRel ρ env env') :
    EnvRel ρ.diagonal env' env' where
  lookup hx := ⟨_, hx, h.closed (mem_of_lookup hx), rfl⟩
  closed hb := h.closed hb

theorem forall₂_self {α : Type} {P Q : α → α → Prop} (h : ∀ {x y}, P x y → Q y y) {xs ys : List α}
    (hxs : List.Forall₂ P xs ys) : List.Forall₂ Q ys ys := by
  induction hxs with
  | nil => exact .nil
  | cons hx _ ih => exact .cons (h hx) ih

theorem CellRel.self (hclosed : ∀ {a b}, ρ.rel a b → ρ.closed b) (h : CellRel R ρ c c') :
    CellRel Same ρ.diagonal c' c' := by
  cases h with
  | var hv => exact .var (hv.self hclosed)
  | array hxs => exact .array (forall₂_self (fun hx => hx.self hclosed) hxs)
  | map hes => exact .map (forall₂_self (fun he => ⟨he.1.self hclosed, he.2.self hclosed⟩) hes)
  | closure _ _ henv => exact .closure rfl rfl henv.self

section Comp

variable {ρ τ : Links}

theorem ValueRel.comp {u w : Value} (h : ValueRel ρ u v) (h' : ValueRel τ v w) :
    ValueRel (ρ.comp τ) u w := by
  cases h with
  | ref hab =>
    cases h' with
    | ref hbc => exact .ref ⟨_, hab, hbc⟩
  | _ =>
    cases h'
    constructor

theorem EnvRel.comp {env'' : Env} (h : EnvRel ρ env env') (h' : EnvRel τ env' env'') :
    EnvRel (ρ.comp τ) env env'' where
  lookup hx := by
    obtain ⟨b, hb, hab⟩ := h.lookup hx
    obtain ⟨c, hc, hbc⟩ := h'.lookup hb
    exact ⟨c, hc, b, hab, hbc⟩
  closed hc := h'.closed hc

theorem forall₂_trans {α : Type} {P Q S : α → α → Prop} (h : ∀ x y z, P x y → Q y z → S x z) :
    ∀ {xs ys zs : List α}, List.Forall₂ P xs ys → List.Forall₂ Q ys zs → List.Forall₂ S xs zs
  | _, _, _, .nil, .nil => .nil
  | _, _, _, .cons hx hxs, .cons hy hys => .cons (h _ _ _ hx hy) (forall₂_trans h hxs hys)

theorem CellRel.comp {d e : Cell} (h : CellRel R ρ c d) (h' : CellRel Same τ d e) :
    CellRel R (ρ.comp τ) c e := by
  cases h with
  | var hv =>
    cases h' with
    | var hv' => exact .var (hv.comp hv')
  | array hxs =>
    cases h' with
    | array hxs' => exact .array (forall₂_trans (fun _ _ _ hx hy => hx.comp hy) hxs hxs')
  | map hes =>
    cases h' with
    | map hes' => exact .map (forall₂_trans (fun _ _ _ he he' => ⟨he.1.comp he'.1, he.2.comp he'.2⟩) hes hes')
  | closure hid hcode henv =>
    cases h' with
    | closure _ hsame henv' =>
      cases hsame
      exact .closure hid hcode (henv.comp henv')

end Comp

/-! ### Linked states -/

/-- What is compared: which functions stand for which, and which variables on the left are known to
have a value although they are not on the right. -/
structure Setting where
  codes : Codes
  pins : Address → Value → Prop

def noPins : Address → Value → Prop := fun _ _ => False

structure StateRel (σ : Setting) (ρ : Links) (s s' : State) : Prop where
  cells {a b : Address} : ρ.rel a b →
    ∃ c c', s.memory[a]? = some c ∧ s'.memory[b]? = some c' ∧ CellRel σ.codes ρ c c'
  oneToOne : ρ.OneToOne
  closed_right {a b : Address} : ρ.rel a b → ρ.closed b
  /-- The right state, compared with itself. -/
  right {b : Address} : ρ.closed b → ∃ c, s'.memory[b]? = some c ∧ CellRel Same ρ.diagonal c c
  output : s.output = s'.output
  pinned {a : Address} {v : Value} : σ.pins a v → s.memory[a]? = some (.var v)
  unlinked {a b : Address} {v : Value} : σ.pins a v → ¬ ρ.rel a b

section Memory

variable {α : Type} {xs : List α} {c d : α} {a b : Address}

theorem lt_of_cell (h : xs[a]? = some c) : a < xs.length :=
  (List.getElem?_eq_some_iff.mp h).1

theorem cell_append (ys : List α) (h : xs[a]? = some c) : (xs ++ ys)[a]? = some c := by
  rw [List.getElem?_append_left (lt_of_cell h), h]

theorem cell_set_self (h : xs[a]? = some c) : (xs.set a d)[a]? = some d :=
  List.getElem?_set_self (lt_of_cell h)

theorem cell_set_ne (hne : a ≠ b) (h : xs[b]? = some c) : (xs.set a d)[b]? = some c := by
  rw [List.getElem?_set_ne hne, h]

end Memory

namespace StateRel

variable {σ : Setting} {ρ τ : Links} {s s' t : State}
variable {b : Address}

theorem lt_left (h : StateRel σ ρ s s') (hab : ρ.rel a b) : a < s.memory.length := by
  obtain ⟨_, _, ha, _, _⟩ := h.cells hab
  exact lt_of_cell ha

theorem lt_right (h : StateRel σ ρ s s') (hb : ρ.closed b) : b < s'.memory.length := by
  obtain ⟨_, hb, _⟩ := h.right hb
  exact lt_of_cell hb

theorem allocate (h : StateRel σ ρ s s')
    (hcell : CellRel σ.codes (ρ.link s.memory.length s'.memory.length) c c') :
    StateRel σ (ρ.link s.memory.length s'.memory.length) { s with memory := s.memory ++ [c] }
      { s' with memory := s'.memory ++ [c'] } := by
  have hle := ρ.le_link s.memory.length s'.memory.length
  have hclosed : ∀ {a b}, (ρ.link s.memory.length s'.memory.length).rel a b →
      (ρ.link s.memory.length s'.memory.length).closed b := by
    rintro a b (hab | ⟨-, rfl⟩)
    · exact .inl (h.closed_right hab)
    · exact .inr rfl
  constructor
  case cells =>
    rintro a b (hab | ⟨rfl, rfl⟩)
    · obtain ⟨d, d', ha, hb, hd⟩ := h.cells hab
      exact ⟨d, d', cell_append _ ha, cell_append _ hb, hd.mono hle⟩
    · exact ⟨c, c', List.getElem?_concat_length, List.getElem?_concat_length, hcell⟩
  case oneToOne =>
    constructor
    · rintro a b b' (hab | ⟨ha, hb⟩) (hab' | ⟨ha', hb'⟩)
      · exact h.oneToOne.right hab hab'
      · exact absurd ha' (h.lt_left hab).ne
      · exact absurd ha (h.lt_left hab').ne
      · rw [hb, hb']
    · rintro a a' b (hab | ⟨ha, hb⟩) (hab' | ⟨ha', hb'⟩)
      · exact h.oneToOne.left hab hab'
      · exact absurd hb' (h.lt_right (h.closed_right hab)).ne
      · exact absurd hb (h.lt_right (h.closed_right hab')).ne
      · rw [ha, ha']
  case closed_right => exact hclosed
  case right =>
    rintro b (hb | rfl)
    · obtain ⟨d, hd, hself⟩ := h.right hb
      exact ⟨d, cell_append _ hd, hself.mono (Links.diagonal_mono hle)⟩
    · exact ⟨c', List.getElem?_concat_length, hcell.self hclosed⟩
  case output => exact h.output
  case pinned =>
    intro a v hpin
    exact cell_append _ (h.pinned hpin)
  case unlinked =>
    rintro a b v hpin (hab | ⟨ha, -⟩)
    · exact h.unlinked hpin hab
    · exact absurd ha (lt_of_cell (h.pinned hpin)).ne

theorem store (h : StateRel σ ρ s s') (hab : ρ.rel a b) (hcell : CellRel σ.codes ρ c c') :
    StateRel σ ρ { s with memory := s.memory.set a c } { s' with memory := s'.memory.set b c' } := by
  obtain ⟨_, _, ha, hb, _⟩ := h.cells hab
  constructor
  case cells =>
    intro x y hxy
    obtain ⟨d, d', hx, hy, hd⟩ := h.cells hxy
    by_cases hax : a = x
    · subst hax
      obtain rfl := h.oneToOne.right hab hxy
      exact ⟨c, c', cell_set_self ha, cell_set_self hb, hcell⟩
    · have hby : b ≠ y := by
        rintro rfl
        exact hax (h.oneToOne.left hab hxy)
      exact ⟨d, d', cell_set_ne hax hx, cell_set_ne hby hy, hd⟩
  case oneToOne => exact h.oneToOne
  case closed_right => exact h.closed_right
  case right =>
    intro y hy
    obtain ⟨d, hd, hself⟩ := h.right hy
    by_cases hby : b = y
    · subst hby
      exact ⟨c', cell_set_self hb, hcell.self h.closed_right⟩
    · exact ⟨d, cell_set_ne hby hd, hself⟩
  case output => exact h.output
  case pinned =>
    intro x v hpin
    refine cell_set_ne ?_ (h.pinned hpin)
    rintro rfl
    exact h.unlinked hpin hab
  case unlinked => exact h.unlinked

theorem grow (h : StateRel σ ρ s s') (cells : List Cell) :
    StateRel σ ρ { s with memory := s.memory ++ cells } s' where
  cells hab := by
    obtain ⟨c, c', ha, hb, hcell⟩ := h.cells hab
    exact ⟨c, c', cell_append _ ha, hb, hcell⟩
  oneToOne := h.oneToOne
  closed_right := h.closed_right
  right := h.right
  output := h.output
  pinned hpin := cell_append _ (h.pinned hpin)
  unlinked := h.unlinked

theorem print (h : StateRel σ ρ s s') (p : Picture) :
    StateRel σ ρ { s with output := s.output ++ [p] } { s' with output := s'.output ++ [p] } where
  cells := h.cells
  oneToOne := h.oneToOne
  closed_right := h.closed_right
  right := h.right
  output := by rw [h.output]
  pinned := h.pinned
  unlinked := h.unlinked

theorem self (h : StateRel σ ρ s s') : StateRel ⟨Same, noPins⟩ ρ.diagonal s' s' where
  cells := by
    rintro b _ ⟨hb, rfl⟩
    obtain ⟨c, hc, hself⟩ := h.right hb
    exact ⟨c, c, hc, hc, hself⟩
  oneToOne := ρ.oneToOne_diagonal
  closed_right := by
    rintro b _ ⟨hb, rfl⟩
    exact hb
  right := h.right
  output := rfl
  pinned := False.elim
  unlinked := False.elim

theorem comp (h : StateRel σ ρ s s') (h' : StateRel ⟨Same, noPins⟩ τ s' t) :
    StateRel σ (ρ.comp τ) s t where
  cells := by
    rintro a c ⟨b, hab, hbc⟩
    obtain ⟨x, y, hx, hy, hxy⟩ := h.cells hab
    obtain ⟨y', z, hy', hz, hyz⟩ := h'.cells hbc
    obtain rfl : y = y' := Option.some.inj (hy.symm.trans hy')
    exact ⟨x, z, hx, hz, hxy.comp hyz⟩
  oneToOne := h.oneToOne.comp h'.oneToOne
  closed_right := by
    rintro a c ⟨b, -, hbc⟩
    exact h'.closed_right hbc
  right := h'.right
  output := h.output.trans h'.output
  pinned := h.pinned
  unlinked := by
    rintro a c v hpin ⟨b, hab, -⟩
    exact h.unlinked hpin hab

end StateRel

end Semantics

end LemonScript
