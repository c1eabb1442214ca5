import Mathlib.Order.Defs.Unbundled
import LemonScript.Proofs.Typing.Instance
/-!
# Subtypes

A value of any type is one of the type `any`, and arrays and maps follow their parts. A value may be
stored where a type is expected if and only if its type may turn out to be a subtype of something that
the expected type may turn out to be. So what may be stored depends on the instances of a type only, and
among types without empty literals it is a partial order.
-/

namespace LemonScript

open Bool (and_eq_true_iff)

namespace Ty

/-- A value of the first type is one of the second type. -/
inductive Subtype : Ty → Ty → Prop
  | refl (t : Ty) : Subtype t t
  | any (t : Ty) : Subtype t any
  | array {t u : Ty} (h : Subtype t u) : Subtype (array t) (array u)
  | map {k l v w : Ty} (hkey : Subtype k l) (hvalue : Subtype v w) : Subtype (map k v) (map l w)

variable {a b t u v : Ty}

theorem assignable_of_equivalent (a b : Ty) (h : a.equivalent b) : a.assignable b := by
  fun_induction assignable a b with
  | case1 => rfl
  | case2 member member' ih => exact ih h
  | case3 key value key' value' ihkey ihvalue =>
    have h := and_eq_true_iff.mp h
    exact and_eq_true_iff.mpr ⟨ihkey h.1, ihvalue h.2⟩
  | case4 => exact h

theorem exists_subtype (a b : Ty) (h : a.assignable b) :
    ∃ t u, Instance a t ∧ Instance b u ∧ Subtype t u := by
  fun_induction assignable a b with
  | case1 a => exact ⟨_, _, instance_filled a, instance_filled any, .any _⟩
  | case2 member member' ih =>
    obtain ⟨t, u, ht, hu, hsub⟩ := ih h
    exact ⟨_, _, ⟨.array ht.1, ht.2⟩, ⟨.array hu.1, hu.2⟩, .array hsub⟩
  | case3 key value key' value' ihkey ihvalue =>
    have h := and_eq_true_iff.mp h
    obtain ⟨t, u, ht, hu, hkey⟩ := ihkey h.1
    obtain ⟨v, w, hv, hw, hvalue⟩ := ihvalue h.2
    exact ⟨_, _, ⟨.map ht.1 hv.1, and_eq_true_iff.mpr ⟨ht.2, hv.2⟩⟩,
      ⟨.map hu.1 hw.1, and_eq_true_iff.mpr ⟨hu.2, hw.2⟩⟩, .map hkey hvalue⟩
  | case4 =>
    obtain ⟨t, ha, hb⟩ := exists_common h
    exact ⟨t, t, ha, hb, .refl t⟩

theorem Subtype.assignable (h : Subtype t u) (ha : StandsFor a t) (hb : StandsFor b u) :
    a.assignable b := by
  induction h generalizing a b with
  | refl t => exact assignable_of_equivalent a b (ha.equivalent hb)
  | any t =>
    cases hb
    rw [Ty.assignable]
  | array _ ih =>
    cases ha with
    | emptyArray =>
      cases hb <;> rfl
    | array ha =>
      cases hb with
      | emptyArray => rfl
      | array hb => simpa only [Ty.assignable] using ih ha hb
  | map _ _ ihkey ihvalue =>
    cases ha with
    | emptyMap =>
      cases hb <;> rfl
    | map hkey hvalue =>
      cases hb with
      | emptyMap => rfl
      | map hkey' hvalue' => exact and_eq_true_iff.mpr ⟨ihkey hkey hkey', ihvalue hvalue hvalue'⟩

theorem assignable_iff : a.assignable b ↔ ∃ t u, Instance a t ∧ Instance b u ∧ Subtype t u := by
  refine ⟨exists_subtype a b, ?_⟩
  rintro ⟨t, u, ha, hb, hsub⟩
  exact hsub.assignable ha.1 hb.1

theorem Subtype.trans (h : Subtype t u) (h' : Subtype u v) : Subtype t v := by
  induction h generalizing v with
  | refl t => exact h'
  | any t =>
    -- Only `any` is above `any`.
    cases h' with
    | refl | any => exact .any t
  | array h ih =>
    cases h' with
    | refl => exact .array h
    | any => exact .any _
    | array h' => exact .array (ih h')
  | map hkey hvalue ihkey ihvalue =>
    cases h' with
    | refl => exact .map hkey hvalue
    | any => exact .any _
    | map hkey' hvalue' => exact .map (ihkey hkey') (ihvalue hvalue')

theorem Subtype.antisymm (h : Subtype t u) (h' : Subtype u t) : t = u := by
  induction h with
  | refl t => rfl
  | any t =>
    cases h' with
    | refl | any => rfl
  | array h ih =>
    cases h' with
    | refl => rfl
    | array h' => rw [ih h']
  | map _ _ ihkey ihvalue =>
    cases h' with
    | refl => rfl
    | map hkey' hvalue' => rw [ihkey hkey', ihvalue hvalue']

theorem assignable_iff_subtype (ha : a.isExact) (hb : b.isExact) :
    a.assignable b ↔ Subtype a b := by
  rw [assignable_iff]
  constructor
  · rintro ⟨t, u, hat, hbu, hsub⟩
    rwa [hat.1.eq_of_isExact ha, hbu.1.eq_of_isExact hb] at hsub
  · intro hsub
    have hself {c : Ty} (hc : c.isExact = true) : Instance c c :=
      ⟨standsFor_of_equivalent (equivalent_refl c) hc, hc⟩
    exact ⟨a, b, hself ha, hself hb, hsub⟩

theorem isPartialOrder_assignable :
    IsPartialOrder { t : Ty // t.isExact = true } fun t u => t.val.assignable u.val = true where
  refl t := (assignable_iff_subtype t.2 t.2).mpr (.refl t.val)
  trans t u v htu huv := by
    have htu := (assignable_iff_subtype t.2 u.2).mp htu
    have huv := (assignable_iff_subtype u.2 v.2).mp huv
    exact (assignable_iff_subtype t.2 v.2).mpr (htu.trans huv)
  antisymm t u htu hut := by
    have htu := (assignable_iff_subtype t.2 u.2).mp htu
    have hut := (assignable_iff_subtype u.2 t.2).mp hut
    exact Subtype.ext (htu.antisymm hut)

/-- A value may be stored where a type is expected if and only if some instance of its type is a subtype
of some instance of the expected one. So equivalent types may be stored in each other, and among types in
which no empty literal's type occurs what may be stored is a partial order. -/
theorem assignable_subtype_instance (a b : Ty) :
    (a.assignable b = true ↔ ∃ t u, Instance a t ∧ Instance b u ∧ Subtype t u) ∧
      (a.equivalent b = true → a.assignable b = true) ∧
      IsPartialOrder { t : Ty // t.isExact = true } fun t u => t.val.assignable u.val = true :=
  ⟨assignable_iff, assignable_of_equivalent a b, isPartialOrder_assignable⟩

/-- An empty literal may be stored as an array of maps, and what is stored as such may be stored as an
array of anything. -/
theorem assignable_subtype_instance_nested :
    emptyArray.equivalent (array (map string int)) = true ∧
      emptyArray.assignable (array (map string int)) = true ∧
      ∃ t u, Instance (array (map string emptyArray)) t ∧ Instance (array (map any (array int))) u ∧
        Subtype t u :=
  ⟨rfl, (assignable_subtype_instance _ _).2.1 rfl, (assignable_subtype_instance _ _).1.mp rfl⟩

/-- The first type may turn out to be whatever the second one may turn out to be. -/
def Covers (a b : Ty) : Prop := ∀ t, Instance b t → Instance a t

namespace Covers

variable {a b c : Ty}

theorem refl (a : Ty) : Covers a a := fun _ h => h

theorem equivalent (ha : Covers a c) (hb : Covers b c) : a.equivalent b :=
  equivalent_iff.mpr ⟨c.filled, ha _ (instance_filled c), hb _ (instance_filled c)⟩

theorem equivalent_of_equivalent (h : Covers a b) (hb : c.equivalent b) : c.equivalent a := by
  obtain ⟨t, hc, hb⟩ := equivalent_iff.mp hb
  exact equivalent_iff.mpr ⟨t, hc, h t hb⟩

theorem assignable (h : Covers a b) (hb : b.assignable c) : a.assignable c := by
  obtain ⟨t, u, hb, hc, hsub⟩ := assignable_iff.mp hb
  exact assignable_iff.mpr ⟨t, u, h t hb, hc, hsub⟩

theorem of_isExact (h : a.equivalent b) (hb : b.isExact) : Covers a b := by
  rintro t ⟨hbt, ht⟩
  rw [hbt.eq_of_isExact hb]
  exact ⟨standsFor_of_equivalent h hb, hb⟩

theorem array_iff : Covers (array a) (array b) ↔ Covers a b := by
  refine ⟨fun h t ht => ?_, fun h t ht => ?_⟩
  · obtain ⟨hinstance, hexact⟩ := h (array t) ⟨.array ht.1, ht.2⟩
    cases hinstance with
    | array hinstance => exact ⟨hinstance, hexact⟩
  · obtain ⟨hinstance, hexact⟩ := ht
    cases hinstance with
    | array hinstance =>
      obtain ⟨hinstance, hexact⟩ := h _ ⟨hinstance, hexact⟩
      exact ⟨.array hinstance, hexact⟩

theorem map_iff {k l w : Ty} : Covers (map k v) (map l w) ↔ Covers k l ∧ Covers v w := by
  have split {t u : Ty} (h : Instance (map k v) (map t u)) : Instance k t ∧ Instance v u := by
    obtain ⟨hinstance, hexact⟩ := h
    have hexact := and_eq_true_iff.mp hexact
    cases hinstance with
    | map hkey hvalue => exact ⟨⟨hkey, hexact.1⟩, hvalue, hexact.2⟩
  refine ⟨fun h => ⟨fun t ht => ?_, fun t ht => ?_⟩, fun h t ht => ?_⟩
  · have hw := instance_filled w
    exact (split (h (map t w.filled) ⟨.map ht.1 hw.1, and_eq_true_iff.mpr ⟨ht.2, hw.2⟩⟩)).1
  · have hl := instance_filled l
    exact (split (h (map l.filled t) ⟨.map hl.1 ht.1, and_eq_true_iff.mpr ⟨hl.2, ht.2⟩⟩)).2
  · obtain ⟨hinstance, hexact⟩ := ht
    cases hinstance with
    | map hkey hvalue =>
      have hparts := and_eq_true_iff.mp hexact
      exact ⟨.map (h.1 _ ⟨hkey, hparts.1⟩).1 (h.2 _ ⟨hvalue, hparts.2⟩).1, hexact⟩

end Covers

theorem not_assignable_both (hint : a.assignable int) (hstring : a.assignable string) : False := by
  have hint : a.equivalent int = true := by cases a <;> exact hint
  have hstring : a.equivalent string = true := by cases a <;> exact hstring
  cases standsFor_of_equivalent hint rfl
  cases hstring

/-- Among equivalent types, one covers another if it is accepted wherever an instance of that is
expected. -/
theorem covers_of_assignable : ∀ {a b : Ty}, a.equivalent b →
    (∀ t, Instance b t → a.assignable t) → Covers a b
  | array member, array member', h, hall => by
    refine Covers.array_iff.mpr (covers_of_assignable (a := member) h fun t ht => ?_)
    exact hall (array t) ⟨.array ht.1, ht.2⟩
  | map key value, map key' value', h, hall => by
    have h := and_eq_true_iff.mp h
    have hparts {t u : Ty} (ht : Instance key' t) (hu : Instance value' u) :
        key.assignable t = true ∧ value.assignable u = true :=
      and_eq_true_iff.mp (hall (map t u) ⟨.map ht.1 hu.1, and_eq_true_iff.mpr ⟨ht.2, hu.2⟩⟩)
    refine Covers.map_iff.mpr ⟨covers_of_assignable h.1 fun t ht => ?_, covers_of_assignable h.2 fun t ht => ?_⟩
    · exact (hparts ht (instance_filled value')).1
    · exact (hparts (instance_filled key') ht).2
  | base b, base b', h, _ => by
    obtain rfl := eq_of_beq (show (b == b') = true by cases b <;> cases b' <;> exact h)
    exact .refl _
  | base b, array member, h, _ => by
    rintro t ⟨hinstance, hexact⟩
    cases hinstance
    cases b <;> first | exact ⟨.emptyArray _, hexact⟩ | cases h
  | base b, map key value, h, _ => by
    rintro t ⟨hinstance, hexact⟩
    cases hinstance
    cases b <;> first | exact ⟨.emptyMap _ _, hexact⟩ | cases h
  | array member, base b, h, hall => by
    cases b with
    | emptyArray =>
      exact (not_assignable_both (a := member) (hall (array int) ⟨.emptyArray _, rfl⟩)
        (hall (array string) ⟨.emptyArray _, rfl⟩)).elim
    | _ => cases h
  | map key value, base b, h, hall => by
    cases b with
    | emptyMap =>
      have hint := (and_eq_true_iff.mp (hall (map int int) ⟨.emptyMap _ _, rfl⟩)).1
      have hstring := (and_eq_true_iff.mp (hall (map string int) ⟨.emptyMap _ _, rfl⟩)).1
      exact (not_assignable_both hint hstring).elim
    | _ => cases h
  | func params result, func params' result', _, hall => by
    rintro t ⟨hinstance, hexact⟩
    have hassignable := hall t ⟨hinstance, hexact⟩
    cases hinstance with
    | func => exact ⟨standsFor_of_equivalent hassignable hexact, hexact⟩
  | nothing, nothing, _, _ => .refl _
  | named name, named name', h, _ => by
    obtain rfl := eq_of_beq (show (name == name') = true from h)
    exact .refl _

end Ty

end LemonScript
