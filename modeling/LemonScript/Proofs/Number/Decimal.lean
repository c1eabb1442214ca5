import LemonScript.Number.Decimal
import LemonScript.Proofs.Number.Binary64
/-!
# The decimal of a double stands for no other double

The shortest decimal of a double lies in the interval of the numbers that round to the double. The
intervals of two doubles have no number in common, so the decimal determines the double.
-/

namespace LemonScript

open Nat (cast_le cast_mul cast_ofNat cast_pow pow_eq)

namespace Decimal

open Binary64 (Parts hiddenBit hiddenBit_eq minExponent)

/-! ### Points of a grid as numbers -/

variable {i : Interval} {e q : Int} {r : ℚ} {m n : Nat}

theorem zpow_mul_pow_toNat {b : ℚ} (hb : b ≠ 0) (z : Int) : b ^ z * b ^ (-z).toNat = b ^ z.toNat := by
  rw [← zpow_natCast, ← zpow_natCast, ← zpow_add₀ hb]
  congr 1
  omega

/-- The two sides of the grid are `10 ^ p` and `2 ^ e`, on a common scale. -/
theorem exists_scale_grid (p e : Int) :
    ∃ s : ℚ, 0 < s ∧ ((grid p e).tens : ℚ) = 10 ^ p * s ∧ ((grid p e).twos : ℚ) = 2 ^ e * s := by
  refine ⟨10 ^ (-p).toNat * 2 ^ (-e).toNat, by positivity, ?_, ?_⟩
  · simp only [grid, pow_eq, cast_mul, cast_pow, cast_ofNat]
    rw [← mul_assoc, zpow_mul_pow_toNat (by norm_num)]
  · simp only [grid, pow_eq, cast_mul, cast_pow, cast_ofNat]
    rw [mul_left_comm, zpow_mul_pow_toNat (by norm_num)]

theorem grid_le_iff (p e : Int) (k n : Nat) :
    k * (grid p e).tens ≤ n * (grid p e).twos ↔ (k : ℚ) * 10 ^ p ≤ n * 2 ^ e := by
  obtain ⟨s, hs, htens, htwos⟩ := exists_scale_grid p e
  rw [← cast_le (α := ℚ), cast_mul, cast_mul, htens, htwos, ← mul_assoc, ← mul_assoc]
  exact mul_le_mul_iff_left₀ hs

theorem grid_ge_iff (p e : Int) (k n : Nat) :
    n * (grid p e).twos ≤ k * (grid p e).tens ↔ (n : ℚ) * 2 ^ e ≤ k * 10 ^ p := by
  obtain ⟨s, hs, htens, htwos⟩ := exists_scale_grid p e
  rw [← cast_le (α := ℚ), cast_mul, cast_mul, htens, htwos, ← mul_assoc, ← mul_assoc]
  exact mul_le_mul_iff_left₀ hs

theorem tens_grid_pos (p e : Int) : 0 < (grid p e).tens := by
  simp only [grid, pow_eq]
  positivity

/-! ### The interval of a double -/

def Interval.Contains (i : Interval) (e : Int) (r : ℚ) : Prop :=
  if i.closed then (i.low : ℚ) * 2 ^ e ≤ r ∧ r ≤ i.high * 2 ^ e
  else (i.low : ℚ) * 2 ^ e < r ∧ r < i.high * 2 ^ e

theorem Interval.Contains.bounds (h : i.Contains e r) :
    (i.low : ℚ) * 2 ^ e ≤ r ∧ r ≤ i.high * 2 ^ e := by
  unfold Contains at h
  split at h
  · exact h
  · exact ⟨h.1.le, h.2.le⟩

theorem Interval.Contains.of_lt (hlow : (i.low : ℚ) * 2 ^ e < r) (hhigh : r < i.high * 2 ^ e) :
    i.Contains e r := by
  unfold Contains
  split
  · exact ⟨hlow.le, hhigh.le⟩
  · exact ⟨hlow, hhigh⟩

theorem hits_iff (i : Interval) (p e : Int) (k : Nat) :
    (grid p e).hits i k = true ↔ i.Contains e (k * 10 ^ p) := by
  unfold Grid.hits Interval.Contains
  split
  · rw [Bool.and_eq_true, decide_eq_true_iff, decide_eq_true_iff, grid_ge_iff, grid_le_iff]
  · rw [Bool.and_eq_true, decide_eq_true_iff, decide_eq_true_iff, ← not_le, ← not_le, grid_le_iff,
      grid_ge_iff, not_le, not_le]

/-- What is picked lies in the interval: of two neighbours only one that hits is taken. -/
theorem contains_of_pick? {p : Int} {k : Nat} (h : (grid p e).pick? i = some k) :
    i.Contains e (k * 10 ^ p) := by
  rw [← hits_iff]
  simp only [Grid.pick?] at h
  split at h
  · next hbelow habove =>
    cases h
    unfold Grid.nearer
    dsimp only
    split
    · exact hbelow
    · split
      · exact habove
      · rcases Nat.mod_two_eq_zero_or_one (i.value * (grid p e).twos / (grid p e).tens) with heven | hodd
        · rw [heven]
          exact hbelow
        · rw [hodd]
          exact habove
  · next hbelow _ =>
    cases h
    exact hbelow
  · next _ habove =>
    cases h
    exact habove
  · cases h

/-! ### The first digit -/

-- In the range of the doubles no power of ten lies between a power of two and the guess for it.
theorem ten_pow_le_two_pow : ∀ l < 1024, 10 ^ (l * 30103 / 100000) ≤ 2 ^ l := by
  decide +kernel

theorem two_pow_le_ten_pow : ∀ j < 1075, 2 ^ j ≤ 10 ^ ((j * 30103 + 99999) / 100000) := by
  decide +kernel

theorem ten_zpow_fdiv_le {l : Int} (hlow : -1074 ≤ l) (hhigh : l ≤ 1023) :
    (10 : ℚ) ^ Int.fdiv (l * 30103) 100000 ≤ 2 ^ l := by
  rw [Int.fdiv_eq_ediv_of_nonneg _ (by decide)]
  by_cases hl : 0 ≤ l
  · obtain ⟨n, rfl⟩ := Int.eq_ofNat_of_zero_le hl
    have hguess : (n : Int) * 30103 / 100000 = ((n * 30103 / 100000 : Nat) : Int) := by omega
    rw [hguess, zpow_natCast, zpow_natCast]
    exact_mod_cast ten_pow_le_two_pow n (by omega)
  · obtain ⟨j, hj⟩ := Int.eq_ofNat_of_zero_le (show 0 ≤ -l by omega)
    have hguess : l * 30103 / 100000 = -(((j * 30103 + 99999) / 100000 : Nat) : Int) := by omega
    rw [hguess, show l = -(j : Int) by omega, zpow_neg, zpow_neg, zpow_natCast, zpow_natCast]
    apply inv_anti₀ (by positivity)
    exact_mod_cast two_pow_le_ten_pow j (by omega)

theorem ten_zpow_leadingExponent_le (h : Parts m q) (hm : 0 < m) :
    (10 : ℚ) ^ leadingExponent m q ≤ m * 2 ^ q := by
  simp only [leadingExponent]
  split
  · next hnext =>
    rw [← Nat.one_mul (grid _ q).tens, grid_le_iff, Nat.cast_one, one_mul] at hnext
    exact hnext
  · have hlog : m.log2 ≤ 52 := by
      have hne : m ≠ 0 := by omega
      have hlt := h.lt
      rw [hiddenBit_eq] at hlt
      have hbits : m.log2 < 53 := (Nat.log2_lt hne).2 (by omega)
      omega
    have hmin := h.min_le
    have hmax := h.le_max
    rw [minExponent] at hmin
    calc (10 : ℚ) ^ Int.fdiv ((m.log2 + q) * 30103) 100000
        ≤ 2 ^ ((m.log2 : Int) + q) := ten_zpow_fdiv_le (by omega) (by omega)
      _ = ((2 ^ m.log2 : Nat) : ℚ) * 2 ^ q := by
        rw [zpow_add₀ (by norm_num), zpow_natCast, cast_pow, cast_ofNat]
      _ ≤ m * 2 ^ q := by
        apply mul_le_mul_of_nonneg_right _ (by positivity)
        exact_mod_cast Nat.log2_self_le (by omega)

/-! ### The search -/

theorem low_interval (m : Nat) (q : Int) : (interval m q).low ≤ 4 * m - 1 := by
  simp only [interval]
  split <;> omega

/-- Behind the last digit tried, the digits are cut off; that moves the number by less than a quarter of
the unit in the last place. -/
theorem contains_cut (h : Parts m q) (hm : 0 < m) :
    let p := leadingExponent m q - 17
    let g := grid p (q - 2)
    (interval m q).Contains (q - 2) ((((interval m q).value * g.twos / g.tens : Nat) : ℚ) * 10 ^ p) := by
  intro p g
  have hbelow : g.tens * (4 * m * g.twos / g.tens) ≤ 4 * m * g.twos := Nat.mul_div_le _ _
  have habove := Nat.lt_mul_div_succ (4 * m * g.twos) (tens_grid_pos p (q - 2))
  show (interval m q).Contains (q - 2) (((4 * m * g.twos / g.tens : Nat) : ℚ) * 10 ^ p)
  generalize 4 * m * g.twos / g.tens = k at hbelow habove
  rw [mul_comm, grid_le_iff] at hbelow
  rw [← not_le, mul_comm, grid_le_iff, not_le] at habove
  have hunit : (0 : ℚ) < 2 ^ (q - 2) := by positivity
  have hvalue : (m : ℚ) * 2 ^ q < 2 ^ 55 * 2 ^ (q - 2) := by
    have hlt : (m : ℚ) < 2 ^ 53 := by
      have := h.lt
      rw [hiddenBit_eq] at this
      exact_mod_cast (show m < 2 ^ 53 by omega)
    have hq : (2 : ℚ) ^ q = 4 * 2 ^ (q - 2) := by
      rw [zpow_sub₀ (by norm_num)]
      ring
    rw [hq]
    nlinarith
  have hstep : (10 : ℚ) ^ p < 2 ^ (q - 2) := by
    have hlead := ten_zpow_leadingExponent_le h hm
    have hp : (10 : ℚ) ^ leadingExponent m q = 10 ^ 17 * 10 ^ p := by
      rw [← zpow_natCast, ← zpow_add₀ (by norm_num)]
      congr 1
      show _ = (17 : Int) + (_ - 17)
      omega
    rw [hp] at hlead
    linarith
  have hlow : ((interval m q).low : ℚ) ≤ 4 * m - 1 := by
    have := low_interval m q
    have hcast : ((interval m q).low : ℚ) ≤ ((4 * m - 1 : Nat) : ℚ) := by exact_mod_cast this
    rwa [Nat.cast_sub (by omega), cast_mul, cast_ofNat, Nat.cast_one] at hcast
  push_cast at hbelow habove
  apply Interval.Contains.of_lt
  · nlinarith
  · simp only [interval]
    push_cast
    nlinarith

theorem contains_search {leading : Int}
    (hlast : i.Contains e ((i.value * (grid (leading - 17) e).twos / (grid (leading - 17) e).tens : Nat) *
      10 ^ (leading - 17))) {count left : Nat} (h : count + left = 17) :
    ∃ k p, search i leading e count left = ofScaled k p ∧ i.Contains e (k * 10 ^ p) := by
  induction left generalizing count with
  | zero =>
    obtain rfl : count = 17 := h
    exact ⟨_, _, rfl, hlast⟩
  | succ left ih =>
    simp only [search]
    split
    · next k hk => exact ⟨k, _, rfl, contains_of_pick? hk⟩
    · exact ih (by omega)

/-- The shortest decimal rounds to its double. -/
theorem contains_shortest (h : Parts m q) (hm : 0 < m) :
    ∃ k p, shortest m q = ofScaled k p ∧ (interval m q).Contains (q - 2) (k * 10 ^ p) :=
  contains_search (contains_cut h hm) rfl

/-! ### Intervals of different doubles -/

/-- The ends of the interval of an odd significand do not belong to it. -/
theorem bounds_of_odd (h : (interval m q).Contains (q - 2) r) (hodd : m % 2 = 1) :
    ((interval m q).low : ℚ) * 2 ^ (q - 2) < r ∧ r < (4 * m + 2) * 2 ^ (q - 2) := by
  have hopen : (interval m q).closed = false := by simp [interval, hodd]
  rw [Interval.Contains, if_neg (by rw [hopen]; decide)] at h
  simpa [interval] using h

theorem le_of_contains (h : (interval m q).Contains (q - 2) r) :
    ((interval m q).low : ℚ) * 2 ^ (q - 2) ≤ r ∧ r ≤ (4 * m + 2) * 2 ^ (q - 2) := by
  simpa [interval] using h.bounds

theorem lt_of_contains_of_lt (hlt : m < n) {s : ℚ} (hr : (interval m q).Contains (q - 2) r)
    (hs : (interval n q).Contains (q - 2) s) : r < s := by
  have hunit : (0 : ℚ) < 2 ^ (q - 2) := by positivity
  have hlow : (4 * n : ℚ) - 2 ≤ (interval n q).low := by
    have hnat : 4 * n ≤ (interval n q).low + 2 := by
      simp only [interval]
      split <;> omega
    have hcast : ((4 * n : Nat) : ℚ) ≤ ((interval n q).low + 2 : Nat) := cast_le.mpr hnat
    push_cast at hcast
    linarith
  -- The ends meet only if the significands are neighbours, and then one of them is odd.
  rcases Nat.mod_two_eq_zero_or_one m with heven | hodd
  · rcases Nat.mod_two_eq_zero_or_one n with heven' | hodd
    · have hstep : (m : ℚ) + 2 ≤ n := by exact_mod_cast (show m + 2 ≤ n by omega)
      have hupper := (le_of_contains hr).2
      have hlower := (le_of_contains hs).1
      nlinarith
    · have hstep : (m : ℚ) + 1 ≤ n := by exact_mod_cast hlt
      have hupper := (le_of_contains hr).2
      have hlower := (bounds_of_odd hs hodd).1
      nlinarith
  · have hstep : (m : ℚ) + 1 ≤ n := by exact_mod_cast hlt
    have hupper := (bounds_of_odd hr hodd).2
    have hlower := (le_of_contains hs).1
    nlinarith

theorem lt_of_contains_of_lt_exponent (hm : Parts m q) (hn : Parts n e) (hlt : q < e) {s : ℚ}
    (hr : (interval m q).Contains (q - 2) r) (hs : (interval n e).Contains (e - 2) s) : r < s := by
  have hunit : (0 : ℚ) < 2 ^ (q - 2) := by positivity
  have hunits : 2 * (2 : ℚ) ^ (q - 2) ≤ 2 ^ (e - 2) := by
    rw [← zpow_one_add₀ (by norm_num)]
    exact zpow_le_zpow_right₀ (by norm_num) (by omega)
  have hnormal : hiddenBit ≤ n := by
    by_contra hsub
    have hmin := hn.normal (by omega)
    have hq := hm.min_le
    omega
  have hlow : (2 : ℚ) ^ 54 - 1 ≤ (interval n e).low := by
    have hnat : 2 ^ 54 ≤ (interval n e).low + 1 := by
      simp only [interval]
      rw [hiddenBit_eq] at hnormal
      split
      · omega
      · next hpower =>
        have hne : n ≠ 2 ^ 52 := by
          rintro rfl
          have hq := hm.min_le
          simp [hiddenBit_eq] at hpower
          omega
        omega
    have hcast : ((2 ^ 54 : Nat) : ℚ) ≤ ((interval n e).low + 1 : Nat) := cast_le.mpr hnat
    push_cast at hcast
    linarith
  have hlower : (2 ^ 54 - 1 : ℚ) * 2 ^ (e - 2) ≤ s :=
    le_trans (mul_le_mul_of_nonneg_right hlow (by positivity)) (le_of_contains hs).1
  have hbits := hm.lt
  rw [hiddenBit_eq] at hbits
  -- The largest significand is odd, so the end of its interval does not belong to it.
  rcases Nat.mod_two_eq_zero_or_one m with heven | hodd
  · have hmax : (m : ℚ) ≤ 2 ^ 53 - 2 := by exact_mod_cast (show (m : Int) ≤ 2 ^ 53 - 2 by omega)
    have hupper := (le_of_contains hr).2
    nlinarith
  · have hmax : (m : ℚ) ≤ 2 ^ 53 - 1 := by exact_mod_cast (show (m : Int) ≤ 2 ^ 53 - 1 by omega)
    have hupper := (bounds_of_odd hr hodd).2
    nlinarith

theorem pos_of_contains (hm : 0 < m) (h : (interval m q).Contains (q - 2) r) : 0 < r := by
  have hlow : 0 < (interval m q).low := by
    simp only [interval]
    split <;> omega
  have hunit : (0 : ℚ) < 2 ^ (q - 2) := by positivity
  exact (mul_pos (Nat.cast_pos.mpr hlow) hunit).trans_le (le_of_contains h).1

theorem eq_of_contains (hm : Parts m q) (hn : Parts n e) (hr : (interval m q).Contains (q - 2) r)
    (hs : (interval n e).Contains (e - 2) r) : m = n ∧ q = e := by
  rcases lt_trichotomy q e with hlt | rfl | hlt
  · exact absurd (lt_of_contains_of_lt_exponent hm hn hlt hr hs) (lt_irrefl r)
  · rcases lt_trichotomy m n with hlt | rfl | hlt
    · exact absurd (lt_of_contains_of_lt hlt hr hs) (lt_irrefl r)
    · exact ⟨rfl, rfl⟩
    · exact absurd (lt_of_contains_of_lt hlt hs hr) (lt_irrefl r)
  · exact absurd (lt_of_contains_of_lt_exponent hn hm hlt hs hr) (lt_irrefl r)

end Decimal

end LemonScript
