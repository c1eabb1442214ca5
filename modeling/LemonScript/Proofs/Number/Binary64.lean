import Mathlib
import LemonScript.Number.Binary64
/-!
# Doubles and their bits

A double is known by its bits, and a finite one by its sign, its significand and its exponent. The bits of
every finite double can be put together again from these parts.
-/

namespace LemonScript

namespace Binary64

open Float.Model UnpackedFloat

/-! ### Finite doubles -/

variable {x : Float} {b : UInt64}

theorem isFinite_iff_unpackExponent (x : Float) :
    x.isFinite ↔ @unpackExponent .binary64 x.toBits.toBitVec ≠ -1#11 := by
  change (UnpackedFloat.unpack .binary64 x.toBits.toBitVec).isFinite = true ↔ _
  unfold UnpackedFloat.unpack
  by_cases hexponent : @unpackExponent .binary64 x.toBits.toBitVec = -1#11
  · rw [if_pos hexponent]
    refine iff_of_false ?_ (not_not_intro hexponent)
    split <;> simp [UnpackedFloat.isFinite]
  · rw [if_neg hexponent]
    refine iff_of_true ?_ hexponent
    split
    · split <;> rfl
    · rfl

theorem isFinite_of_not_isInf_or_isNaN (h : (x.isInf || x.isNaN) = false) : x.isFinite := by
  change (x.toModel.unpack.isInf || x.toModel.unpack.isNaN) = false at h
  change x.toModel.unpack.isFinite = true
  cases hunpack : x.toModel.unpack with
  | infinity | notANumber =>
    rw [hunpack] at h
    cases h
  | zero | finite => rfl

theorem unpackExponent_pack_neg (f : UnpackedFloat) :
    unpackExponent (UnpackedFloat.pack .binary64 f.neg) =
      unpackExponent (UnpackedFloat.pack .binary64 f) := by
  cases f with
  | notANumber => rfl
  | infinity | zero => simp [UnpackedFloat.neg, UnpackedFloat.pack, packedInfinity, packedZero]
  | finite =>
    simp only [UnpackedFloat.neg, UnpackedFloat.pack, packedInfinity]
    split
    · simp
    split <;> simp

theorem isFinite_neg (h : x.isFinite) : (-x).isFinite := by
  rw [isFinite_iff_unpackExponent] at h ⊢
  intro hneg
  apply h
  rw [← hneg]
  change _ = unpackExponent (UnpackedFloat.pack .binary64 x.toModel.unpack.neg)
  rw [unpackExponent_pack_neg]
  exact congrArg unpackExponent (pack_unpack_of_valid x.toModel.valid).symm

/-! ### Fields of the bits -/

theorem hiddenBit_eq : hiddenBit = 2 ^ 52 := rfl

def signBit (negative : Bool) : Nat := if negative then Nat.pow 2 63 else 0

def biased (bits : Nat) : Nat := bits / hiddenBit % 2048

theorem toNat_unpackExponent (b : BitVec 64) : (@unpackExponent .binary64 b).toNat = biased b.toNat := by
  rw [unpackExponent_def, BitVec.extractLsb'_toNat, Nat.shiftRight_eq_div_pow]
  rfl

theorem isFinite_iff (x : Float) : x.isFinite ↔ biased x.toBits.toNat ≠ 2047 := by
  rw [isFinite_iff_unpackExponent, ← UInt64.toNat_toBitVec, ← toNat_unpackExponent, ne_eq, ne_eq,
    BitVec.toNat_eq]
  rfl

theorem toBits_ofBits (h : biased b.toNat ≠ 2047) : (Float.ofBits b).toBits = b := by
  have hnan : @isNaNBits .binary64 b.toBitVec = false := by
    rw [isNaNBits, decide_eq_false_iff_not]
    rintro ⟨hexponent, -⟩
    apply h
    rw [← UInt64.toNat_toBitVec, ← toNat_unpackExponent, hexponent]
    rfl
  apply UInt64.toBitVec_inj.mp
  have hpack := @pack_unpack .binary64 b.toBitVec (by decide)
  rw [hnan, if_neg (by decide)] at hpack
  exact hpack

theorem isFinite_ofBits (h : biased b.toNat ≠ 2047) : (Float.ofBits b).isFinite := by
  rw [isFinite_iff, toBits_ofBits h]
  exact h

theorem biased_signed {bits : Nat} (negative : Bool) (h : bits < 2047 * hiddenBit) :
    biased (UInt64.ofNat (signBit negative + bits)).toNat ≠ 2047 := by
  rw [hiddenBit_eq] at h
  have hsign : signBit negative = 0 ∨ signBit negative = 2 ^ 63 := by
    cases negative
    · exact .inl rfl
    · exact .inr rfl
  rw [UInt64.toNat_ofNat', Nat.mod_eq_of_lt (by omega), biased, hiddenBit_eq]
  omega

theorem isFinite_of_ofQuotient? {negative : Bool} {num den : Nat}
    (h : ofQuotient? negative num den = some x) : x.isFinite := by
  simp only [ofQuotient?] at h
  split at h
  · cases h
    exact isFinite_ofBits (@biased_signed 0 negative (by decide))
  · split at h
    · next hbits =>
      cases h
      exact isFinite_ofBits (biased_signed negative hbits)
    · cases h

theorem toBits_inj {y : Float} (h : x.toBits = y.toBits) : x = y := by
  obtain ⟨⟨b, hb⟩⟩ := x
  obtain ⟨⟨c, hc⟩⟩ := y
  cases (show b = c from h)
  rfl

/-! ### Parts of a finite double -/

/-- The parts of a finite double: a significand below the hidden bit belongs to the least exponent, and
all others have the hidden bit. -/
structure Parts (m : Nat) (q : Int) : Prop where
  lt : m < 2 * hiddenBit
  min_le : minExponent ≤ q
  le_max : q ≤ 971
  normal : m < hiddenBit → q = minExponent

theorem ofFloat_of_isFinite (h : x.isFinite) :
    ∃ negative m q, ofFloat x = .finite negative m q ∧ Parts m q ∧
      x.toBits.toNat = signBit negative + bitsOf m q := by
  rw [isFinite_iff] at h
  have hlt : x.toBits.toNat < 2 ^ 64 := x.toBits.toNat_lt
  simp only [ofFloat]
  generalize x.toBits.toNat = bits at *
  have hsign : signBit (bits / Nat.pow 2 63 == 1) = bits / 2 ^ 63 * 2 ^ 63 := by
    rw [Nat.pow_eq]
    rcases (by omega : bits / 2 ^ 63 = 0 ∨ bits / 2 ^ 63 = 1) with hbit | hbit <;> rw [hbit] <;> rfl
  split
  · next hmax => exact absurd (beq_iff_eq.mp hmax) h
  split
  · next hzero =>
    have hzero : bits / 2 ^ 52 % 2048 = 0 := beq_iff_eq.mp hzero
    have hfraction : bits % hiddenBit < hiddenBit := Nat.mod_lt _ (by decide)
    refine ⟨_, _, _, rfl, ⟨by omega, le_refl _, by decide, fun _ => rfl⟩, ?_⟩
    rw [hsign, bitsOf, if_pos hfraction, hiddenBit_eq]
    omega
  · next hzero =>
    have hzero : bits / 2 ^ 52 % 2048 ≠ 0 := by simpa [hiddenBit_eq] using hzero
    have hfraction : bits % hiddenBit < hiddenBit := Nat.mod_lt _ (by decide)
    rw [biased, hiddenBit_eq] at h
    refine ⟨_, _, _, rfl, ⟨by omega, ?_, ?_, by omega⟩, ?_⟩
    · rw [hiddenBit_eq, minExponent]
      omega
    · rw [hiddenBit_eq]
      omega
    · rw [hsign, bitsOf, if_neg (by omega), Nat.add_sub_cancel_left, hiddenBit_eq]
      omega

end Binary64

end LemonScript
