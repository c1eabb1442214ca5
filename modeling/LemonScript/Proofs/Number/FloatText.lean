import LemonScript.Proofs.JavaScript.Numeral
/-!
# Doubles and their texts

Each double has a text of its own: a finite one can be told from its sign and its digits, there is one
double that is no number, and two that are infinite. Doubles that are equal as numbers are the same, but
for the two zeros, and of these only one can be written with digits.
-/

namespace LemonScript

namespace Binary64

open Float.Model UnpackedFloat

variable {x y : Float}

/-! ### Doubles that are not finite -/

theorem toNat_unpackMantissa (b : BitVec 64) : (@unpackMantissa .binary64 b).toNat = b.toNat % hiddenBit := by
  rw [unpackMantissa, BitVec.toNat_cast, BitVec.extractLsb_toNat]
  rfl

theorem toBits_of_notANumber (h : ofFloat x = .notANumber) :
    x.toBits.toBitVec = packedNaN .binary64 := by
  have hfields : biased x.toBits.toNat = 2047 ∧ x.toBits.toNat % hiddenBit ≠ 0 := by
    simp only [ofFloat] at h
    split at h
    · next hbiased =>
      split at h
      · cases h
      · next hfraction => exact ⟨beq_iff_eq.mp hbiased, by simpa using hfraction⟩
    · split at h <;> cases h
  refine x.toModel.valid.eq_packedNaN ?_ ?_
  · rw [BitVec.toNat_eq, toNat_unpackExponent]
    exact hfields.1
  · rw [ne_eq, BitVec.toNat_eq, toNat_unpackMantissa]
    exact hfields.2

theorem toBits_of_infinite {negative : Bool} (h : ofFloat x = .infinite negative) :
    x.toBits.toNat = signBit negative + 2047 * hiddenBit := by
  have hlt : x.toBits.toNat < 2 ^ 64 := x.toBits.toNat_lt
  simp only [ofFloat] at h
  generalize x.toBits.toNat = bits at *
  split at h
  · next hbiased =>
    have hbiased : bits / 2 ^ 52 % 2048 = 2047 := beq_iff_eq.mp hbiased
    split at h
    · next hfraction =>
      have hfraction : bits % 2 ^ 52 = 0 := beq_iff_eq.mp hfraction
      cases h
      have hsign : signBit (bits / Nat.pow 2 63 == 1) = bits / 2 ^ 63 * 2 ^ 63 := by
        rw [Nat.pow_eq]
        rcases (by omega : bits / 2 ^ 63 = 0 ∨ bits / 2 ^ 63 = 1) with hbit | hbit <;> rw [hbit] <;> rfl
      rw [hsign, hiddenBit_eq]
      omega
    · cases h
  · split at h <;> cases h

theorem ofFloat_of_not_isFinite (h : x.isFinite ≠ true) :
    ofFloat x = .notANumber ∨ ∃ negative, ofFloat x = .infinite negative := by
  rw [ne_eq, isFinite_iff, not_not] at h
  simp only [ofFloat]
  rw [if_pos (by exact beq_iff_eq.mpr h)]
  split
  · exact .inr ⟨_, rfl⟩
  · exact .inl rfl

/-! ### Equal numbers -/

theorem eq_of_unpack (h : x.toModel.unpack = y.toModel.unpack) : x = y := by
  apply toBits_inj
  apply UInt64.toBitVec_inj.mp
  calc x.toBits.toBitVec = pack .binary64 x.toModel.unpack := (pack_unpack_of_valid x.toModel.valid).symm
    _ = pack .binary64 y.toModel.unpack := by rw [h]
    _ = y.toBits.toBitVec := pack_unpack_of_valid y.toModel.valid

theorem sign_of_zero {s : Sign} (h : x.toModel.unpack = .zero s) :
    s = .ofBitVec (@unpackSign .binary64 x.toBits.toBitVec) := by
  change UnpackedFloat.unpack .binary64 x.toBits.toBitVec = _ at h
  unfold UnpackedFloat.unpack at h
  dsimp only at h
  split at h
  · split at h <;> cases h
  · split at h
    · split at h
      · cases h
        rfl
      · cases h
    · cases h

theorem eq_of_compare {a b : UnpackedFloat} (h : a.compare b = some .eq) :
    a = b ∨ ∃ s s', a = .zero s ∧ b = .zero s' := by
  unfold UnpackedFloat.compare at h
  split at h
  case h_3 s s' => cases s <;> cases s' <;> first | exact .inl rfl | cases h
  case h_12 => exact .inr ⟨_, _, rfl, rfl⟩
  case h_13 m e hm n f hn =>
    have hparts : ((compare e f).then (compare m n)).swap = .eq := Option.some.inj h
    rw [Ordering.swap_eq_eq, Ordering.then_eq_eq, compare_eq_iff_eq, compare_eq_iff_eq] at hparts
    obtain ⟨rfl, rfl⟩ := hparts
    exact .inl rfl
  case h_16 m e hm n f hn =>
    have hparts : (compare e f).then (compare m n) = .eq := Option.some.inj h
    rw [Ordering.then_eq_eq, compare_eq_iff_eq, compare_eq_iff_eq] at hparts
    obtain ⟨rfl, rfl⟩ := hparts
    exact .inl rfl
  all_goals cases h

theorem eq_of_beq (h : (x == y))
    (hsign : @unpackSign .binary64 x.toBits.toBitVec = @unpackSign .binary64 y.toBits.toBitVec) : x = y := by
  have hcompare : x.toModel.unpack.compare y.toModel.unpack = some .eq := beq_iff_eq.mp h
  apply eq_of_unpack
  rcases eq_of_compare hcompare with heq | ⟨s, s', hx, hy⟩
  · exact heq
  · rw [hx, hy, sign_of_zero hx, sign_of_zero hy, hsign]

theorem unpackSign_of_lt {b : UInt64} (h : b.toNat < 2 ^ 63) : @unpackSign .binary64 b.toBitVec = 0#1 := by
  rw [BitVec.toNat_eq, unpackSign, BitVec.toNat_cast, BitVec.extractLsb_toNat, UInt64.toNat_toBitVec]
  change b.toNat >>> 63 % 2 = 0
  rw [Nat.shiftRight_eq_div_pow]
  omega

theorem unpackSign_of_ofQuotient? {num den : Nat} (h : ofQuotient? false num den = some x) :
    @unpackSign .binary64 x.toBits.toBitVec = 0#1 := by
  have hpositive {bits : Nat} (hbits : bits < 2047 * hiddenBit) :
      @unpackSign .binary64 (Float.ofBits (UInt64.ofNat (signBit false + bits))).toBits.toBitVec = 0#1 := by
    rw [toBits_ofBits (biased_signed false hbits)]
    apply unpackSign_of_lt
    rw [hiddenBit_eq] at hbits
    rw [UInt64.toNat_ofNat', signBit, if_neg (by decide), Nat.mod_eq_of_lt (by omega)]
    omega
  simp only [ofQuotient?] at h
  split at h
  · cases h
    exact @hpositive 0 (by decide)
  · split at h
    · next hbits =>
      cases h
      exact hpositive hbits
    · cases h

theorem eq_of_floatOfDigits? {whole fraction whole' fraction' : List Char} (hx : floatOfDigits? whole fraction = some x)
    (hy : floatOfDigits? whole' fraction' = some y) (h : (x == y)) : x = y :=
  eq_of_beq h ((unpackSign_of_ofQuotient? hx).trans (unpackSign_of_ofQuotient? hy).symm)

end Binary64

/-! ### Texts -/

section Texts

open JavaScript

variable {x y : Float}

theorem floatText_of_notANumber (h : Binary64.ofFloat x = .notANumber) : floatText x = "NaN" := by
  rw [floatText, h]

theorem floatText_of_infinite {negative : Bool} (h : Binary64.ofFloat x = .infinite negative) :
    floatText x = if negative then "-Inf" else "+Inf" := by
  rw [floatText, h]

theorem magnitude_ne {c : Char} {cs : List Char} (hc : isDigit c = false) (h : x.isFinite) :
    magnitude x ≠ c :: cs := by
  obtain ⟨n, hn, -⟩ := numeral?_magnitude h
  intro heq
  rw [heq] at hn
  have hnone : numeral? (c :: cs) = none := by
    simp [numeral?, hc, isWhole]
  rw [hnone] at hn
  cases hn

theorem floatText_ne_of_isFinite (hx : x.isFinite) (hy : y.isFinite ≠ true) :
    floatText x ≠ floatText y := by
  intro h
  have hlist : (if isNegative x then '-' :: magnitude x else magnitude x) = (floatText y).toList := by
    rw [← toList_floatText hx, h]
  rcases Binary64.ofFloat_of_not_isFinite hy with hnan | ⟨_ | _, hinfinite⟩
  · rw [floatText_of_notANumber hnan] at hlist
    split at hlist
    · cases hlist
    · exact magnitude_ne (by decide) hx hlist
  · rw [floatText_of_infinite hinfinite] at hlist
    split at hlist
    · cases hlist
    · exact magnitude_ne (by decide) hx hlist
  · rw [floatText_of_infinite hinfinite] at hlist
    split at hlist
    · exact magnitude_ne (by decide) hx (List.cons.inj hlist).2
    · exact magnitude_ne (by decide) hx hlist

theorem eq_of_isFinite (hx : x.isFinite) (hy : y.isFinite) (h : floatText x = floatText y) : x = y := by
  have hlist : (if isNegative x then '-' :: magnitude x else magnitude x) =
      if isNegative y then '-' :: magnitude y else magnitude y := by
    rw [← toList_floatText hx, ← toList_floatText hy, h]
  split at hlist
  · next hnegative =>
    split at hlist
    · next hnegative' => exact eq_of_magnitude hx hy (hnegative.trans hnegative'.symm) (List.cons.inj hlist).2
    · exact absurd hlist.symm (magnitude_ne (by decide) hy)
  · next hpositive =>
    split at hlist
    · exact absurd hlist (magnitude_ne (by decide) hx)
    · next hpositive' =>
      rw [Bool.not_eq_true] at hpositive hpositive'
      exact eq_of_magnitude hx hy (hpositive.trans hpositive'.symm) hlist

theorem eq_of_not_isFinite (hx : x.isFinite ≠ true) (hy : y.isFinite ≠ true) (h : floatText x = floatText y) :
    x = y := by
  apply Binary64.toBits_inj
  rcases Binary64.ofFloat_of_not_isFinite hx with hx | ⟨negative, hx⟩
  · rcases Binary64.ofFloat_of_not_isFinite hy with hy | ⟨negative', hy⟩
    · apply UInt64.toBitVec_inj.mp
      rw [Binary64.toBits_of_notANumber hx, Binary64.toBits_of_notANumber hy]
    · rw [floatText_of_notANumber hx, floatText_of_infinite hy] at h
      cases negative' <;> simp at h
  · rcases Binary64.ofFloat_of_not_isFinite hy with hy | ⟨negative', hy⟩
    · rw [floatText_of_infinite hx, floatText_of_notANumber hy] at h
      cases negative <;> simp at h
    · rw [floatText_of_infinite hx, floatText_of_infinite hy] at h
      rw [← UInt64.toNat_inj, Binary64.toBits_of_infinite hx, Binary64.toBits_of_infinite hy]
      cases negative <;> cases negative' <;> first | rfl | simp at h

/-- Different doubles have different texts. -/
theorem floatText_inj (h : floatText x = floatText y) : x = y := by
  by_cases hx : x.isFinite = true
  · by_cases hy : y.isFinite = true
    · exact eq_of_isFinite hx hy h
    · exact absurd h (floatText_ne_of_isFinite hx hy)
  · by_cases hy : y.isFinite = true
    · exact absurd h.symm (floatText_ne_of_isFinite hy hx)
    · exact eq_of_not_isFinite hx hy h

end Texts

end LemonScript
