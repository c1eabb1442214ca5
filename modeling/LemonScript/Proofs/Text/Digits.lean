import Mathlib
import LemonScript.Text.Digit
import LemonScript.Text.Hex
/-!
# Numbers and their digits

The digits of a number, in base ten or sixteen, are read back as the number.
-/

namespace LemonScript

variable {n width : Nat} {c : Char}

theorem mem_toDigits {b : Nat} (hb : 1 < b) (h : c ∈ Nat.toDigits b n) :
    ∃ d < b, c = Nat.digitChar d := by
  induction n using Nat.strong_induction_on with
  | h n ih =>
    by_cases hn : n < b
    · rw [Nat.toDigits_of_lt_base hn, List.mem_singleton] at h
      exact ⟨n, hn, h⟩
    · rw [Nat.toDigits_of_base_le hb (by omega), List.mem_append, List.mem_singleton] at h
      rcases h with h | h
      · exact ih (n / b) (Nat.div_lt_self (by omega) hb) h
      · exact ⟨n % b, Nat.mod_lt n (by omega), h⟩

/-! ### Base ten -/

theorem isDigit_of_mem_toDigits (h : c ∈ Nat.toDigits 10 n) : isDigit c := by
  have hdigits : ∀ d < 10, isDigit (Nat.digitChar d) = true := by decide
  obtain ⟨d, hd, rfl⟩ := mem_toDigits (by decide) h
  exact hdigits d hd

theorem decimalValue_toDigits (n : Nat) : decimalValue (Nat.toDigits 10 n) = n := by
  rw [decimalValue, ← Nat.ofDigitChars_eq_foldl]
  exact Nat.ofDigitChars_ten_toDigits

theorem toList_toString (n : Nat) : (toString n).toList = Nat.toDigits 10 n := by
  rw [Nat.toString_eq_ofList_toDigits, String.toList_ofList]

theorem toDigits_inj {k k' : Nat} (h : Nat.toDigits 10 k = Nat.toDigits 10 k') : k = k' := by
  rw [← Nat.ofDigitChars_ten_toDigits (n := k), h, Nat.ofDigitChars_ten_toDigits]

/-! ### Base sixteen -/

theorem hexValue_digitChar {d : Nat} (h : d < 16) :
    hexValue (Nat.digitChar d) = d ∧ isHexDigit (Nat.digitChar d) := by
  revert d
  decide

theorem hexNumber_toDigits (n : Nat) : hexNumber (Nat.toDigits 16 n) = n := by
  induction n using Nat.strong_induction_on with
  | h n ih =>
    by_cases hn : n < 16
    · rw [Nat.toDigits_of_lt_base hn]
      simpa [hexNumber] using (hexValue_digitChar hn).1
    · have hlast := (hexValue_digitChar (Nat.mod_lt n (show 0 < 16 by decide))).1
      have hfront := ih (n / 16) (by omega)
      rw [Nat.toDigits_of_base_le (by decide) (by omega)]
      rw [hexNumber] at hfront ⊢
      rw [List.foldl_append, hfront, List.foldl_cons, List.foldl_nil, hlast]
      omega

theorem hexNumber_hexText (width n : Nat) : hexNumber (hexText width n) = n := by
  have hzeros : ∀ k, (List.replicate k '0').foldl (fun n c => 16 * n + hexValue c) 0 = 0 := by
    intro k
    induction k with
    | zero => rfl
    | succ k ih => rw [List.replicate_succ, List.foldl_cons, show hexValue '0' = 0 from by decide, ih]
  have hdigits := hexNumber_toDigits n
  rw [hexText, hexNumber, List.foldl_append, hzeros]
  exact hdigits

theorem length_hexText (hwidth : 0 < width) (h : n < 16 ^ width) :
    (hexText width n).length = width := by
  have hlength := (Nat.length_toDigits_le_iff (b := 16) (by decide) hwidth).2 h
  rw [hexText, List.length_append, List.length_replicate]
  omega

theorem digitChar_of_mem_hexText (h : c ∈ hexText width n) : ∃ d < 16, c = Nat.digitChar d := by
  rcases List.mem_append.1 h with h | h
  · exact ⟨0, by decide, List.eq_of_mem_replicate h⟩
  · exact mem_toDigits (by decide) h

theorem isHexDigit_of_mem_hexText (h : c ∈ hexText width n) : isHexDigit c := by
  obtain ⟨d, hd, rfl⟩ := digitChar_of_mem_hexText h
  exact (hexValue_digitChar hd).2

end LemonScript
