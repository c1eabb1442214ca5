import LemonScript.Typing.Relation
/-!
# What types stand for

An empty literal has a type of its own, which stands for every array type or for every map type. An
instance of a type is one that it may turn out to be: each of these types in it has found some type
that it stands for, wherever it occurs and whatever the others have found.

The main statement is that types are equivalent if and only if they have a common instance.
-/

namespace LemonScript

open Bool (and_eq_true_iff)

namespace Ty

variable {a b : Ty}

mutual

/-- Whether the type of no empty literal occurs in a type. -/
def isExact : Ty → Bool
  | emptyArray | emptyMap => false
  | array member => member.isExact
  | map key value => key.isExact && value.isExact
  | func params result => areExact params && result.isExact
  | _ => true

def areExact : List Ty → Bool
  | [] => true
  | t :: ts => t.isExact && areExact ts

end

mutual

/-- The second type arises from the first one when the type of each empty literal is replaced, by some
array type or by some map type. -/
inductive StandsFor : Ty → Ty → Prop
  | emptyArray (member : Ty) : StandsFor emptyArray (array member)
  | emptyMap (key value : Ty) : StandsFor emptyMap (map key value)
  | nothing : StandsFor nothing nothing
  | base {b : BaseTy} (h : (base b).isExact = true) : StandsFor (base b) (base b)
  | array {t u : Ty} (h : StandsFor t u) : StandsFor (array t) (array u)
  | map {k l v w : Ty} (hkey : StandsFor k l) (hvalue : StandsFor v w) : StandsFor (map k v) (map l w)
  | func {ts us : List Ty} {t u : Ty} (hparams : StandForAll ts us) (hresult : StandsFor t u) :
    StandsFor (func ts t) (func us u)
  | named (name : String) : StandsFor (named name) (named name)

inductive StandForAll : List Ty → List Ty → Prop
  | nil : StandForAll [] []
  | cons {t u : Ty} {ts us : List Ty} (hfirst : StandsFor t u) (hrest : StandForAll ts us) :
    StandForAll (t :: ts) (u :: us)

end

/-- What a type may turn out to be. -/
def Instance (t u : Ty) : Prop := StandsFor t u ∧ u.isExact = true

mutual

def filled : Ty → Ty
  | emptyArray => array nothing
  | emptyMap => map nothing nothing
  | array member => array member.filled
  | map key value => map key.filled value.filled
  | func params result => func (filledAll params) result.filled
  | t => t

def filledAll : List Ty → List Ty
  | [] => []
  | t :: ts => t.filled :: filledAll ts

end

mutual

theorem instance_filled : ∀ t : Ty, Instance t t.filled
  | nothing => ⟨.nothing, rfl⟩
  | base b => by
    cases b <;> first
      | exact ⟨.emptyArray _, rfl⟩
      | exact ⟨.emptyMap _ _, rfl⟩
      | exact ⟨.base rfl, rfl⟩
  | array member => ⟨.array (instance_filled member).1, (instance_filled member).2⟩
  | map key value =>
    ⟨.map (instance_filled key).1 (instance_filled value).1,
      and_eq_true_iff.mpr ⟨(instance_filled key).2, (instance_filled value).2⟩⟩
  | func params result =>
    ⟨.func (instance_filledAll params).1 (instance_filled result).1,
      and_eq_true_iff.mpr ⟨(instance_filledAll params).2, (instance_filled result).2⟩⟩
  | named name => ⟨.named name, rfl⟩

theorem instance_filledAll : ∀ ts : List Ty, StandForAll ts (filledAll ts) ∧ areExact (filledAll ts) = true
  | [] => ⟨.nil, rfl⟩
  | t :: ts =>
    ⟨.cons (instance_filled t).1 (instance_filledAll ts).1,
      and_eq_true_iff.mpr ⟨(instance_filled t).2, (instance_filledAll ts).2⟩⟩

end

mutual

theorem StandsFor.eq_of_isExact : ∀ {t u : Ty}, StandsFor t u → t.isExact → u = t
  | _, _, .emptyArray _, h | _, _, .emptyMap _ _, h => by cases h
  | _, _, .nothing, _ | _, _, .base _, _ | _, _, .named _, _ => rfl
  | _, _, .array hmember, h => congrArg array (hmember.eq_of_isExact h)
  | _, _, .map hkey hvalue, h => by
    have h := and_eq_true_iff.mp h
    rw [hkey.eq_of_isExact h.1, hvalue.eq_of_isExact h.2]
  | _, _, .func hparams hresult, h => by
    have h := and_eq_true_iff.mp h
    rw [hparams.eq_of_areExact h.1, hresult.eq_of_isExact h.2]

theorem StandForAll.eq_of_areExact : ∀ {ts us : List Ty}, StandForAll ts us → areExact ts → us = ts
  | _, _, .nil, _ => rfl
  | _, _, .cons hfirst hrest, h => by
    have h := and_eq_true_iff.mp h
    rw [hfirst.eq_of_isExact h.1, hrest.eq_of_areExact h.2]

end

mutual

theorem StandsFor.equivalent : ∀ {a b t : Ty}, StandsFor a t → StandsFor b t → a.equivalent b = true
  | _, _, _, .emptyArray _, .emptyArray _ | _, _, _, .emptyArray _, .array _
  | _, _, _, .array _, .emptyArray _ => rfl
  | _, _, _, .emptyMap .., .emptyMap .. | _, _, _, .emptyMap .., .map .. | _, _, _, .map .., .emptyMap .. =>
    rfl
  | _, _, _, .nothing, .nothing => rfl
  | _, _, _, .base _, .base _ => beq_self_eq_true _
  | _, _, _, .named name, .named _ => beq_self_eq_true name
  | _, _, _, .array h, .array h' => h.equivalent h'
  | _, _, _, .map hkey hvalue, .map hkey' hvalue' =>
    and_eq_true_iff.mpr ⟨hkey.equivalent hkey', hvalue.equivalent hvalue'⟩
  | _, _, _, .func hparams hresult, .func hparams' hresult' =>
    and_eq_true_iff.mpr ⟨hparams.equivalentAll hparams', hresult.equivalent hresult'⟩

theorem StandForAll.equivalentAll : ∀ {as bs ts : List Ty}, StandForAll as ts → StandForAll bs ts →
    equivalentAll as bs = true
  | _, _, _, .nil, .nil => rfl
  | _, _, _, .cons h hs, .cons h' hs' =>
    and_eq_true_iff.mpr ⟨h.equivalent h', hs.equivalentAll hs'⟩

end

theorem instance_emptyArray (member : Ty) :
    Instance emptyArray (array member.filled) ∧ Instance (array member) (array member.filled) :=
  ⟨⟨.emptyArray _, (instance_filled member).2⟩, instance_filled (array member)⟩

theorem instance_emptyMap (key value : Ty) : Instance emptyMap (map key.filled value.filled) ∧
      Instance (map key value) (map key.filled value.filled) :=
  ⟨⟨.emptyMap _ _, (instance_filled (map key value)).2⟩, instance_filled (map key value)⟩

mutual

theorem exists_common : ∀ {a b : Ty}, a.equivalent b → ∃ t, Instance a t ∧ Instance b t
  | nothing, nothing, _ => ⟨nothing, instance_filled _, instance_filled _⟩
  | base b, base b', h => by
    obtain rfl := eq_of_beq (show (b == b') = true by cases b <;> cases b' <;> exact h)
    exact ⟨_, instance_filled _, instance_filled _⟩
  | base b, array member, h => by
    cases b <;> first | exact ⟨_, instance_emptyArray member⟩ | cases h
  | array member, base b, h => by
    cases b <;> first | exact ⟨_, (instance_emptyArray member).symm⟩ | cases h
  | base b, map key value, h => by
    cases b <;> first | exact ⟨_, instance_emptyMap key value⟩ | cases h
  | map key value, base b, h => by
    cases b <;> first | exact ⟨_, (instance_emptyMap key value).symm⟩ | cases h
  | array member, array member', h => by
    obtain ⟨t, hmember, hmember'⟩ := exists_common (a := member) (b := member') h
    exact ⟨array t, ⟨.array hmember.1, hmember.2⟩, ⟨.array hmember'.1, hmember.2⟩⟩
  | map key value, map key' value', h => by
    have h := and_eq_true_iff.mp h
    obtain ⟨t, hkey, hkey'⟩ := exists_common h.1
    obtain ⟨u, hvalue, hvalue'⟩ := exists_common h.2
    have hexact : (map t u).isExact = true := and_eq_true_iff.mpr ⟨hkey.2, hvalue.2⟩
    exact ⟨map t u, ⟨.map hkey.1 hvalue.1, hexact⟩, ⟨.map hkey'.1 hvalue'.1, hexact⟩⟩
  | func params result, func params' result', h => by
    have h := and_eq_true_iff.mp h
    obtain ⟨ts, hparams, hparams', hts⟩ := exists_commonAll h.1
    obtain ⟨t, hresult, hresult'⟩ := exists_common h.2
    have hexact : (func ts t).isExact = true := and_eq_true_iff.mpr ⟨hts, hresult.2⟩
    exact ⟨func ts t, ⟨.func hparams hresult.1, hexact⟩, ⟨.func hparams' hresult'.1, hexact⟩⟩
  | named name, named name', h => by
    obtain rfl := eq_of_beq (show (name == name') = true from h)
    exact ⟨_, instance_filled _, instance_filled _⟩

theorem exists_commonAll : ∀ {as bs : List Ty}, equivalentAll as bs →
    ∃ ts, StandForAll as ts ∧ StandForAll bs ts ∧ areExact ts = true
  | [], [], _ => ⟨[], .nil, .nil, rfl⟩
  | a :: as, b :: bs, h => by
    have h := and_eq_true_iff.mp h
    obtain ⟨t, ha, hb⟩ := exists_common h.1
    obtain ⟨ts, has, hbs, hts⟩ := exists_commonAll h.2
    exact ⟨t :: ts, .cons ha.1 has, .cons hb.1 hbs, and_eq_true_iff.mpr ⟨ha.2, hts⟩⟩

end

theorem equivalent_iff : a.equivalent b ↔ ∃ t, Instance a t ∧ Instance b t := by
  refine ⟨exists_common, ?_⟩
  rintro ⟨t, ha, hb⟩
  exact ha.1.equivalent hb.1

theorem equivalent_symm (h : a.equivalent b) : b.equivalent a := by
  obtain ⟨t, ha, hb⟩ := equivalent_iff.mp h
  exact equivalent_iff.mpr ⟨t, hb, ha⟩

theorem equivalent_refl (a : Ty) : a.equivalent a :=
  equivalent_iff.mpr ⟨a.filled, instance_filled a, instance_filled a⟩

theorem standsFor_of_equivalent (h : a.equivalent b) (hb : b.isExact) : StandsFor a b := by
  obtain ⟨t, hat, hbt⟩ := equivalent_iff.mp h
  rw [← hbt.1.eq_of_isExact hb]
  exact hat.1

theorem equivalent_iff_eq (ha : a.isExact) (hb : b.isExact) : a.equivalent b ↔ a = b := by
  constructor
  · intro h
    exact ((standsFor_of_equivalent h hb).eq_of_isExact ha).symm
  · rintro rfl
    exact equivalent_refl a

/-- Types are equivalent if and only if they have a common instance. So equivalence is reflexive and
symmetric, and types in which no empty literal's type occurs are equivalent only if they are equal. -/
theorem equivalent_common_instance (a b : Ty) :
    (a.equivalent b = true ↔ ∃ t, Instance a t ∧ Instance b t) ∧
      a.equivalent a = true ∧ (a.equivalent b = true ↔ b.equivalent a = true) ∧
      (a.isExact = true → b.isExact = true → (a.equivalent b = true ↔ a = b)) :=
  ⟨equivalent_iff, equivalent_refl a, ⟨equivalent_symm, equivalent_symm⟩, equivalent_iff_eq⟩

/-- The types of `[[]]` and of `[[{}]]`, which hold empty literals of two kinds. -/
theorem equivalent_common_instance_nested :
    (array emptyArray).equivalent (array (array emptyMap)) = true ∧
      (∃ t, Instance (array emptyArray) t ∧ Instance (array (array emptyMap)) t) ∧
      (array int).isExact = true ∧ (array string).isExact = true ∧
      ((array int).equivalent (array string) = true ↔ array int = array string) :=
  ⟨rfl, (equivalent_common_instance _ _).1.mp rfl, rfl, rfl,
    (equivalent_common_instance _ _).2.2.2 rfl rfl⟩

end Ty

end LemonScript
