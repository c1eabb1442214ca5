import LemonScript.Proofs.Typing.Decorates
import LemonScript.Proofs.Typing.Meets
/-!
# What a scope shows

A scope shows the declarations that are visible at a place if these are the entities among its names.
The names of a scope are all different, each entity is kept under its own name, and besides the types
of the library only composite types are kept, under their texts. Every step of analysis keeps this.
-/

namespace LemonScript

open List (map_cons mem_cons mem_map nodup_cons suffix_rfl)

namespace Meaning

def entity? : Meaning → Option Entity
  | .var v => some (.var v)
  | .fn f => some (.fn f)
  | .type _ => none

def KeptAs (name : String) : Meaning → Prop
  | .var v => v.name = name ∧ StartsWithLetter name
  | .fn f => f.name = name ∧ StartsWithLetter name
  | .type t => t.isResolved = true ∧
      ((name, t) ∈ Library.types ∨ ¬ StartsWithLetter name ∧ name = t.text)

end Meaning

/-- Entities are kept under their names, which begin with a letter, and composite types under their texts. -/
def WellKept (names : List (String × Meaning)) : Prop := ∀ entry ∈ names, entry.2.KeptAs entry.1

theorem WellKept.rebind {names : List (String × Meaning)} {name : String} {m : Meaning} (h : WellKept names)
    (hm : m.KeptAs name) : WellKept (names.map fun (n, old) => if n == name then (n, m) else (n, old)) := by
  refine List.forall_mem_map.mpr fun ⟨n, old⟩ hmem => ?_
  dsimp only
  split
  · next heq => exact (beq_iff_eq.mp heq).symm ▸ hm
  · exact h _ hmem

/-- The names show just these declarations. -/
structure Shows (Γ : List Entity) (names : List (String × Meaning)) : Prop where
  entities : names.filterMap (·.2.entity?) = Γ
  nodup : (names.map Prod.fst).Nodup
  kept : WellKept names
  types : Library.types.map Prod.fst ⊆ names.map Prod.fst

namespace Shows

variable {Γ Δ : List Entity} {names : List (String × Meaning)} {name : String} {m : Meaning}

theorem initial : Shows Library.entities Scope.initial.names where
  entities := rfl
  nodup := by decide
  kept := by
    intro entry hmem
    simp only [Scope.initial, Library.types, Library.functions, Library.constants, map_cons,
      List.map_nil, List.cons_append, List.nil_append, mem_cons, List.not_mem_nil,
      or_false] at hmem
    rcases hmem with rfl | rfl | rfl | rfl | rfl | rfl | rfl | rfl
    iterate 5 exact ⟨rfl, .inl (by simp [Library.types])⟩
    iterate 3 exact ⟨rfl, by rw [StartsWithLetter]; decide +kernel⟩
  types := by decide

theorem mem_of_lookup (h : names.lookup name = some m) : (name, m) ∈ names := by
  obtain ⟨before, behind, rfl, -⟩ := List.lookup_eq_some_iff.mp h
  simp

theorem notMem_of_lookup (h : names.lookup name = none) : name ∉ names.map Prod.fst := by
  intro hmem
  obtain ⟨entry, hentry, rfl⟩ := mem_map.mp hmem
  simpa using List.lookup_eq_none_iff.mp h entry hentry

theorem sublist_of_kept (h : WellKept names) :
    ((names.filterMap (·.2.entity?)).map Entity.name).Sublist (names.map Prod.fst) := by
  induction names with
  | nil => exact List.nil_sublist _
  | cons entry names ih =>
    obtain ⟨n, m⟩ := entry
    obtain ⟨hm, hrest⟩ := List.forall_mem_cons.mp h
    cases m with
    | var v =>
      obtain ⟨rfl, -⟩ := hm
      exact (ih hrest).cons_cons _
    | fn f =>
      obtain ⟨rfl, -⟩ := hm
      exact (ih hrest).cons_cons _
    | type t => exact (ih hrest).cons _

theorem names_nodup (h : Shows Γ names) : (Γ.map Entity.name).Nodup := by
  rw [← h.entities]
  exact (sublist_of_kept h.kept).nodup h.nodup

theorem filter_name_eq {e : Entity} (h : (Γ.map Entity.name).Nodup) (he : e ∈ Γ) :
    Γ.filter (·.name == e.name) = [e] := by
  induction Γ with
  | nil => simp at he
  | cons d Γ ih =>
    rw [map_cons, nodup_cons] at h
    rcases mem_cons.mp he with rfl | he
    · have hothers : Γ.filter (·.name == e.name) = [] := by
        rw [List.filter_eq_nil_iff]
        intro d hd heq
        exact h.1 (mem_map.mpr ⟨d, hd, beq_iff_eq.mp heq⟩)
      simp [hothers]
    · have hne : d.name ≠ e.name := by
        intro heq
        exact h.1 (mem_map.mpr ⟨e, he, heq.symm⟩)
      simp [hne, ih h.2 he]

theorem denotes (h : Shows Γ names) {e : Entity} (hm : names.lookup name = some m)
    (he : m.entity? = some e) : e ∈ Γ ∧ Lexical.Denotes Γ e := by
  have hmem : e ∈ Γ := by
    rw [← h.entities]
    exact List.mem_filterMap.mpr ⟨(name, m), mem_of_lookup hm, he⟩
  exact ⟨hmem, filter_name_eq h.names_nodup hmem⟩

theorem fresh (h : Shows Γ names) (hnew : names.lookup name = none) : Lexical.Fresh Γ name := by
  have hname := notMem_of_lookup hnew
  refine ⟨fun hmem => hname (h.types hmem), fun hmem => hname ?_⟩
  rw [← h.entities] at hmem
  exact (sublist_of_kept h.kept).subset hmem

theorem cons (h : Shows Γ names) (hnew : names.lookup name = none) (hm : m.KeptAs name) :
    Shows (m.entity?.toList ++ Γ) ((name, m) :: names) where
  entities := by
    rw [List.filterMap_cons, h.entities]
    cases m <;> rfl
  nodup := nodup_cons.mpr ⟨notMem_of_lookup hnew, h.nodup⟩
  kept := List.forall_mem_cons.mpr ⟨hm, h.kept⟩
  types := fun _ hmem => List.mem_cons_of_mem _ (h.types hmem)

theorem map_rebind_eq (h : name ∉ names.map Prod.fst) :
    (names.map fun (n, old) => if n == name then (n, m) else (n, old)) = names := by
  induction names with
  | nil => rfl
  | cons _ _ ih =>
    rw [map_cons, mem_cons, not_or] at h
    rw [map_cons, ih h.2]
    simp [Ne.symm h.1]

theorem rebind {f f' : Function} {inner outer : List (String × Meaning)}
    (h : Shows (Δ ++ .fn f :: Γ) (inner ++ (f.name, .fn f) :: outer)) (houter : Shows Γ outer)
    (hname : f'.name = f.name) : Shows (Δ ++ .fn f' :: Γ) ((inner ++ (f.name, .fn f) :: outer).map
      fun (n, old) => if n == f.name then (n, .fn f') else (n, old)) := by
  have hinner : inner.filterMap (·.2.entity?) = Δ := by
    have hentities := h.entities
    rw [List.filterMap_append, List.filterMap_cons, houter.entities] at hentities
    exact List.append_cancel_right hentities
  -- the name stands there once, so all other entries stay as they are
  have hnodup := h.nodup
  rw [List.map_append, map_cons] at hnodup
  have hother := List.nodup_middle.mp hnodup
  rw [nodup_cons, List.mem_append, not_or] at hother
  have hnames : ((inner ++ (f.name, .fn f) :: outer).map
      fun (n, old) => if n == f.name then (n, .fn f') else (n, old)) =
        inner ++ (f.name, .fn f') :: outer := by
    rw [List.map_append, map_cons, map_rebind_eq hother.1.1, map_rebind_eq hother.1.2]
    simp
  have hletter : StartsWithLetter f.name := (h.kept (f.name, .fn f) (by simp)).2
  have hkept : WellKept _ := h.kept.rebind (m := .fn f') ⟨hname, hletter⟩
  rw [hnames] at hkept ⊢
  refine ⟨?_, ?_, hkept, ?_⟩
  · rw [List.filterMap_append, List.filterMap_cons, houter.entities, hinner]
    rfl
  · simpa using hnodup
  · intro n hn
    simpa using h.types hn

end Shows

namespace Analysis

variable {Γ : List Entity} {s : Scope}

/-! ### Declared types -/

variable {name : String} {t : Ty}

theorem erase_of_mem_types (h : (name, t) ∈ Library.types) : t.erase = .named name := by
  simp only [Library.types, mem_cons, List.not_mem_nil, or_false, Prod.mk.injEq] at h
  rcases h with ⟨rfl, rfl⟩ | ⟨rfl, rfl⟩ | ⟨rfl, rfl⟩ | ⟨rfl, rfl⟩ | ⟨rfl, rfl⟩ <;> rfl

theorem lookup_cons_of_ne {names : List (String × Meaning)} {m : Meaning} {name' : String} (h : name' ≠ name) :
    ((name, m) :: names).lookup name' = names.lookup name' := by
  rw [List.lookup_cons, beq_false_of_ne h]

theorem startsWithLetter_of_mem_types (h : (name, t) ∈ Library.types) : StartsWithLetter name := by
  have hall : ∀ name ∈ Library.types.map Prod.fst, name.toList.head?.any isLetter = true := by
    decide +kernel
  exact hall name (mem_map.mpr ⟨_, h, rfl⟩)

theorem not_startsWithLetter {c : Char} {cs : List Char} (h : name.toList = c :: cs)
    (hc : isLetter c = false) : ¬ StartsWithLetter name := by
  simp [StartsWithLetter, h, hc]

theorem not_startsWithLetter_text (ht : t.isResolved) (hparts : ∀ b, t ≠ .base b) :
    ¬ StartsWithLetter t.text := by
  cases t with
  | nothing | named _ => simp [Ty.isResolved] at ht
  | base b => exact absurd rfl (hparts b)
  | array member => exact not_startsWithLetter (Ty.toList_text_array member) (by decide +kernel)
  | map key value => exact not_startsWithLetter (Ty.toList_text_map key value) (by decide +kernel)
  | func params =>
    rw [Ty.isResolved, Bool.and_eq_true] at ht
    exact not_startsWithLetter (Ty.toList_text_func params ht.2) (by decide +kernel)

theorem keptAs_text (ht : t.isResolved) (hparts : ∀ b, t ≠ .base b) : Meaning.KeptAs t.text (.type t) :=
  ⟨ht, .inr ⟨not_startsWithLetter_text ht hparts, rfl⟩⟩

/-- The names behind the registration of a type. -/
inductive Registered (t : Ty) (names : List (String × Meaning)) : List (String × Meaning) → Prop
  | known : names.lookup t.text = some (.type t) → Registered t names names
  | new : names.lookup t.text = none → Registered t names ((t.text, .type t) :: names)

/-- The registry gives the type that it is asked for. -/
theorem register_eq (h : WellKept s.names) (ht : t.isResolved) (hparts : ∀ b, t ≠ .base b) :
    ∃ names, register t s = .ok (t, { s with names }) ∧ Registered t s.names names := by
  have htext := not_startsWithLetter_text ht hparts
  cases hfound : s.find? t.text with
  | none =>
    refine ⟨_, ?_, .new hfound⟩
    simp [register, declare, require, hfound, get, getThe, MonadStateOf.get, StateT.get, set,
      StateT.set, bind, StateT.bind, Except.bind, pure, StateT.pure, Except.pure]
  | some m =>
    have hkept := h _ (Shows.mem_of_lookup hfound)
    cases m with
    | var v | fn f => exact absurd hkept.2 htext
    | type known =>
      -- the library's types begin with a letter, so the one that is kept was put there by its text
      obtain ⟨hknown, hlibrary | ⟨-, heq⟩⟩ := hkept
      · exact absurd (startsWithLetter_of_mem_types hlibrary) htext
      obtain rfl := Ty.eq_of_text_eq hknown ht heq.symm
      refine ⟨s.names, ?_, .known hfound⟩
      simp [register, hfound, get, getThe, MonadStateOf.get, StateT.get, bind, StateT.bind, Except.bind,
        pure, StateT.pure, Except.pure]

namespace Registered

variable {names names' : List (String × Meaning)} (h : Registered t names names')

include h

theorem lookup_text : names'.lookup t.text = some (.type t) := by
  cases h with
  | known hfound => exact hfound
  | new _ => exact List.lookup_cons_self

theorem lookup_of_ne (hname : name ≠ t.text) : names'.lookup name = names.lookup name := by
  cases h with
  | known _ => rfl
  | new _ => exact lookup_cons_of_ne hname

theorem suffix : names <:+ names' := by
  cases h with
  | known _ => exact suffix_rfl
  | new _ => exact List.suffix_cons _ _

theorem wellKept (hnames : WellKept names) (ht : t.isResolved) (hparts : ∀ b, t ≠ .base b) : WellKept names' := by
  cases h with
  | known _ => exact hnames
  | new _ => exact List.forall_mem_cons.mpr ⟨keptAs_text ht hparts, hnames⟩

theorem shows (hnames : Shows Γ names) (ht : t.isResolved) (hparts : ∀ b, t ≠ .base b) : Shows Γ names' := by
  cases h with
  | known _ => exact hnames
  | new hnew => exact hnames.cons (m := .type t) hnew (keptAs_text ht hparts)

end Registered

theorem meets_register (ht : t.isResolved) (hparts : ∀ b, t ≠ .base b)
    (hs : Shows Γ s.names) : Meets (register t) s (fun t' s' =>
      t' = t ∧ Shows Γ s'.names ∧ s.names <:+ s'.names ∧ s'.nextId = s.nextId) := by
  obtain ⟨names, hrun, hregistered⟩ := register_eq hs.kept ht hparts
  rw [Meets, hrun]
  exact ⟨rfl, hregistered.shows hs ht hparts, hregistered.suffix, rfl⟩

/-- A spelled type was resolved from the scope `s` to the scope `s'`. -/
structure Resolved (Γ : List Entity) (s : Scope) (t t' : Ty) (s' : Scope) : Prop where
  erase : t'.erase = t
  resolved : t'.isResolved = true
  shown : Shows Γ s'.names
  suffix : s.names <:+ s'.names
  nextId_eq : s'.nextId = s.nextId

theorem meets_resolve : ∀ {t : Ty} {s : Scope}, t.Spelled → Shows Γ s.names →
    Meets (resolve t) s (Resolved Γ s t)
  | .named name, s, ht, hs => by
    refine (keeps_lookUp name).bind fun m hfound => ?_
    cases m with
    | type t =>
      have hkept : t.isResolved = true ∧ _ := hs.kept _ (Shows.mem_of_lookup hfound)
      rcases hkept.2 with hlibrary | ⟨hletter, -⟩
      · exact meets_pure ⟨erase_of_mem_types hlibrary, hkept.1, hs, suffix_rfl, rfl⟩
      · exact absurd ht hletter
    | _ => exact meets_reject
  | .array member, s, ht, hs => by
    refine (meets_resolve (t := member) ht hs).bind fun member s₁ hmember => ?_
    have hresolved : (Ty.array member).isResolved = true := hmember.resolved
    refine (meets_register hresolved (by simp) hmember.shown).imp fun t' s₂ h => ?_
    obtain ⟨rfl, hshown, hsuffix, hnext⟩ := h
    exact ⟨by rw [Ty.erase, hmember.erase], hresolved, hshown, hmember.suffix.trans hsuffix,
      hnext.trans hmember.nextId_eq⟩
  | .map key value, s, ht, hs => by
    refine (meets_resolve ht.1 hs).bind fun key s₁ hkey => ?_
    refine (meets_resolve ht.2 hkey.shown).bind fun value s₂ hvalue => ?_
    have hresolved : (Ty.map key value).isResolved = true := by
      simp [Ty.isResolved, hkey.resolved, hvalue.resolved]
    refine (meets_register hresolved (by simp) hvalue.shown).imp fun t' s₃ h => ?_
    obtain ⟨rfl, hshown, hsuffix, hnext⟩ := h
    exact ⟨by rw [Ty.erase, hkey.erase, hvalue.erase], hresolved, hshown,
      hkey.suffix.trans (hvalue.suffix.trans hsuffix),
      hnext.trans (hvalue.nextId_eq.trans hkey.nextId_eq)⟩

end Analysis

end LemonScript
