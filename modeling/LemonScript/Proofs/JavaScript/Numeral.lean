import LemonScript.Number.FloatText
import LemonScript.Proofs.Number.Decimal
import LemonScript.Proofs.Text.Digits
/-!
# Numeric literals

A numeric literal of JavaScript has digits before the point, digits behind it and a power of ten, or it is
a big integer, marked by an `n` at its end. The text of a finite double is a sign and a literal whose value
rounds to that double alone.
-/

namespace LemonScript

open Decimal (ofScaled pointed shortest)

namespace JavaScript

structure Numeral where
  whole : List Char
  fraction : List Char
  exponent : Int
  isBig : Bool
deriving Repr, DecidableEq

def Numeral.value (n : Numeral) : ℚ :=
  decimalValue (n.whole ++ n.fraction) * 10 ^ (n.exponent - n.fraction.length)

/-- Digits before the point: at least one, and no zero in front of another digit. -/
def isWhole (digits : List Char) : Bool :=
  digits == ['0'] || digits.head?.any (· != '0')

def exponent? : List Char → Option Int
  | [] => some 0
  | 'e' :: '+' :: digits => if digits ≠ [] && digits.all isDigit then some (decimalValue digits) else none
  | 'e' :: '-' :: digits => if digits ≠ [] && digits.all isDigit then some (-decimalValue digits) else none
  | _ => none

def numeral? (letters : List Char) : Option Numeral :=
  let whole := letters.takeWhile isDigit
  if isWhole whole then
    match letters.dropWhile isDigit with
    | ['n'] => some ⟨whole, [], 0, true⟩
    | '.' :: more => (exponent? (more.dropWhile isDigit)).map fun e => ⟨whole, more.takeWhile isDigit, e, false⟩
    | rest => (exponent? rest).map fun e => ⟨whole, [], e, false⟩
  else none

/-! ### Runs of digits -/

def EndsDigits (rest : List Char) : Prop := ∀ c ∈ rest.head?, isDigit c = false

theorem takeWhile_digits {digits rest : List Char} (h : ∀ c ∈ digits, isDigit c) (hrest : EndsDigits rest) :
    (digits ++ rest).takeWhile isDigit = digits := by
  rw [List.takeWhile_append_of_pos h]
  cases rest with
  | nil => simp
  | cons c => simp [hrest c rfl]

theorem dropWhile_digits {digits rest : List Char} (h : ∀ c ∈ digits, isDigit c) (hrest : EndsDigits rest) :
    (digits ++ rest).dropWhile isDigit = rest := by
  rw [List.dropWhile_append_of_pos h]
  cases rest with
  | nil => simp
  | cons c => simp [hrest c rfl]

theorem endsDigits_nil : EndsDigits [] := by simp [EndsDigits]

theorem endsDigits_cons {c : Char} {rest : List Char} : EndsDigits (c :: rest) ↔ isDigit c = false := by
  simp [EndsDigits]

theorem decimalValue_append (a b : List Char) :
    decimalValue (a ++ b) = decimalValue a * 10 ^ b.length + decimalValue b := by
  induction b using List.reverseRecOn with
  | nil => simp [decimalValue]
  | append_singleton b c ih =>
    have hlast : ∀ l : List Char, decimalValue (l ++ [c]) = 10 * decimalValue l + (c.toNat - '0'.toNat) := by
      intro l
      simp [decimalValue]
    rw [← List.append_assoc, hlast, hlast, ih, List.length_append, List.length_singleton, pow_succ]
    ring

theorem decimalValue_zeros (n : Nat) : decimalValue (List.replicate n '0') = 0 := by
  induction n with
  | zero => rfl
  | succ n ih =>
    rw [List.replicate_succ', decimalValue_append, ih]
    rfl

theorem decimalValue_zero_cons (digits : List Char) : decimalValue ('0' :: digits) = decimalValue digits := rfl

theorem head?_toDigits {n : Nat} (h : 0 < n) : (Nat.toDigits 10 n).head?.any (· != '0') := by
  have hdigits : ∀ d < 10, 0 < d → (Nat.digitChar d != '0') = true := by decide
  induction n using Nat.strong_induction_on with
  | h n ih =>
    by_cases hn : n < 10
    · rw [Nat.toDigits_of_lt_base hn]
      exact hdigits n hn h
    · rw [Nat.toDigits_of_base_le (by decide) (by omega)]
      have hfront := ih (n / 10) (by omega) (by omega)
      cases hhead : Nat.toDigits 10 (n / 10) with
      | nil =>
        rw [hhead] at hfront
        cases hfront
      | cons =>
        rw [hhead] at hfront
        exact hfront

theorem isWhole_toDigits (n : Nat) : isWhole (Nat.toDigits 10 n) := by
  rcases Nat.eq_zero_or_pos n with rfl | h
  · rfl
  · rw [isWhole, head?_toDigits h, Bool.or_true]

/-! ### Integers -/

theorem numeral?_natural (n : Nat) : numeral? (Nat.toDigits 10 n) = some ⟨Nat.toDigits 10 n, [], 0, false⟩ := by
  have hdigits : ∀ c ∈ Nat.toDigits 10 n, isDigit c = true := fun c => isDigit_of_mem_toDigits
  have htake := takeWhile_digits hdigits endsDigits_nil
  have hdrop := dropWhile_digits hdigits endsDigits_nil
  rw [List.append_nil] at htake hdrop
  rw [numeral?, htake, hdrop]
  simp [isWhole_toDigits, exponent?]

theorem numeral?_big (n : Nat) :
    numeral? (Nat.toDigits 10 n ++ ['n']) = some ⟨Nat.toDigits 10 n, [], 0, true⟩ := by
  have hdigits : ∀ c ∈ Nat.toDigits 10 n, isDigit c = true := fun c => isDigit_of_mem_toDigits
  have hends : EndsDigits ['n'] := endsDigits_cons.mpr (by decide)
  rw [numeral?, takeWhile_digits hdigits hends, dropWhile_digits hdigits hends]
  simp [isWhole_toDigits]

/-! ### Decimals -/

def fractionText : List Char → List Char
  | [] => []
  | fraction => '.' :: fraction

theorem exponent?_eq_some {tail : List Char} {e : Int} (h : exponent? tail = some e) :
    tail = [] ∨ ∃ more, tail = 'e' :: more := by
  unfold exponent? at h
  split at h
  · exact .inl rfl
  · exact .inr ⟨_, rfl⟩
  · exact .inr ⟨_, rfl⟩
  · cases h

theorem numeral?_parts {whole fraction tail : List Char} {e : Int} (hwhole : ∀ c ∈ whole, isDigit c)
    (hfirst : isWhole whole) (hfraction : ∀ c ∈ fraction, isDigit c)
    (htail : exponent? tail = some e) :
    numeral? (whole ++ (fractionText fraction ++ tail)) = some ⟨whole, fraction, e, false⟩ := by
  have hends : EndsDigits tail := by
    rcases exponent?_eq_some htail with rfl | ⟨more, rfl⟩
    · exact endsDigits_nil
    · exact endsDigits_cons.mpr (by decide)
  cases fraction with
  | nil =>
    rw [fractionText, List.nil_append, numeral?, takeWhile_digits hwhole hends, dropWhile_digits hwhole hends,
      if_pos hfirst]
    rcases exponent?_eq_some htail with rfl | ⟨more, rfl⟩
    · cases htail
      rfl
    · simp [htail]
  | cons c fraction =>
    have hpoint : EndsDigits ('.' :: (c :: fraction ++ tail)) := endsDigits_cons.mpr (by decide)
    rw [fractionText, List.cons_append, numeral?, takeWhile_digits hwhole hpoint, dropWhile_digits hwhole hpoint,
      if_pos hfirst]
    · simp only
      rw [takeWhile_digits hfraction hends, dropWhile_digits hfraction hends, htail]
      rfl
    · simp

theorem exponent?_exponentText (e : Int) : exponent? ('e' :: Decimal.exponentText e) = some e := by
  have hdigits : (Nat.toDigits 10 e.natAbs).all isDigit = true :=
    List.all_eq_true.mpr fun c => isDigit_of_mem_toDigits
  have hne : Nat.toDigits 10 e.natAbs ≠ [] := Nat.toDigits_ne_nil
  have hvalue := decimalValue_toDigits e.natAbs
  simp only [Decimal.exponentText]
  generalize Nat.toDigits 10 e.natAbs = digits at hdigits hne hvalue
  have hpadded : ∃ more, (if digits.length < 2 then '0' :: digits else digits) = more ∧ more ≠ [] ∧
      more.all isDigit = true ∧ decimalValue more = e.natAbs := by
    split
    · exact ⟨_, rfl, by simp, by rw [List.all_cons, hdigits]; decide, hvalue⟩
    · exact ⟨_, rfl, hne, hdigits, hvalue⟩
  obtain ⟨more, hmore, hne, hdigits, hvalue⟩ := hpadded
  rw [hmore]
  split
  · simp only [exponent?, hne, hdigits, hvalue, ne_eq, not_false_eq_true, decide_true, Bool.and_self, if_true]
    congr 1
    omega
  · simp only [exponent?, hne, hdigits, hvalue, ne_eq, not_false_eq_true, decide_true, Bool.and_self, if_true]
    congr 1
    omega

/-- A decimal as it is found: digits that do not begin with a zero. -/
structure Proper (d : Decimal) : Prop where
  digits : ∀ c ∈ d.digits, isDigit c = true
  first : d.digits.head?.any (· != '0') = true

theorem Proper.ne_nil {d : Decimal} (h : Proper d) : d.digits ≠ [] := by
  intro hnil
  have hfirst := h.first
  rw [hnil] at hfirst
  cases hfirst

def decimalNumber (d : Decimal) : ℚ := decimalValue d.digits * 10 ^ (d.exponent + 1 - d.digits.length)

theorem pointed_eq (digits : List Char) (n : Nat) : pointed digits n =
      (digits.take n ++ List.replicate (n - digits.length) '0') ++ fractionText (digits.drop n) := by
  cases hfraction : digits.drop n with
  | nil | cons => simp [pointed, fractionText, hfraction]

theorem isDigit_of_mem_replicate {n : Nat} {c : Char} (h : c ∈ List.replicate n '0') : isDigit c := by
  rw [List.eq_of_mem_replicate h]
  decide

theorem numeral?_pointed {digits tail : List Char} {n : Nat} {e : Int} (hn : 0 < n)
    (hdigits : ∀ c ∈ digits, isDigit c) (hfirst : digits.head?.any (· != '0'))
    (htail : exponent? tail = some e) :
    ∃ m, numeral? (pointed digits n ++ tail) = some m ∧ m.isBig = false ∧
      m.value = decimalValue digits * 10 ^ (e + n - digits.length) := by
  have hwhole : ∀ c ∈ digits.take n ++ List.replicate (n - digits.length) '0', isDigit c = true := by
    intro c hc
    rcases List.mem_append.mp hc with hc | hc
    · exact hdigits c (List.mem_of_mem_take hc)
    · exact isDigit_of_mem_replicate hc
  have hhead : isWhole (digits.take n ++ List.replicate (n - digits.length) '0') = true := by
    cases digits with
    | nil => cases hfirst
    | cons =>
      obtain ⟨k, rfl⟩ := Nat.exists_eq_add_of_lt hn
      rw [isWhole, Bool.or_eq_true]
      right
      rw [Nat.zero_add, List.take_succ_cons]
      exact hfirst
  have hfraction : ∀ c ∈ digits.drop n, isDigit c = true := fun c hc => hdigits c (List.mem_of_mem_drop hc)
  refine ⟨⟨digits.take n ++ List.replicate (n - digits.length) '0', digits.drop n, e, false⟩, ?_, rfl, ?_⟩
  · rw [pointed_eq, List.append_assoc]
    exact numeral?_parts hwhole hhead hfraction htail
  · simp only [Numeral.value]
    by_cases hlength : digits.length ≤ n
    · rw [List.drop_of_length_le hlength, List.take_of_length_le hlength, List.append_nil, decimalValue_append,
        decimalValue_zeros, List.length_replicate, List.length_nil, Nat.add_zero, Nat.cast_mul, Nat.cast_pow,
        Nat.cast_ofNat, mul_assoc, ← zpow_natCast, ← zpow_add₀ (by norm_num)]
      congr 2
      omega
    · rw [Nat.sub_eq_zero_of_le (by omega), List.replicate_zero, List.append_nil, List.take_append_drop,
        List.length_drop]
      congr 2
      omega

theorem numeral?_small {digits : List Char} (zeros : Nat) (hdigits : ∀ c ∈ digits, isDigit c)
    (hne : digits ≠ []) :
    ∃ m, numeral? ('0' :: '.' :: (List.replicate zeros '0' ++ digits)) = some m ∧ m.isBig = false ∧
      m.value = decimalValue digits * 10 ^ (-(zeros : Int) - digits.length) := by
  have hfraction : ∀ c ∈ List.replicate zeros '0' ++ digits, isDigit c = true := by
    intro c hc
    rcases List.mem_append.mp hc with hc | hc
    · exact isDigit_of_mem_replicate hc
    · exact hdigits c hc
  refine ⟨⟨['0'], List.replicate zeros '0' ++ digits, 0, false⟩, ?_, rfl, ?_⟩
  · have htext : fractionText (List.replicate zeros '0' ++ digits) = '.' :: (List.replicate zeros '0' ++ digits) := by
      cases hcs : List.replicate zeros '0' ++ digits with
      | nil => exact absurd (List.append_eq_nil_iff.mp hcs).2 hne
      | cons => rfl
    have hzero : ∀ c ∈ ['0'], isDigit c = true := by
      intro c hc
      rw [List.mem_singleton.mp hc]
      decide
    have hparts := @numeral?_parts ['0'] _ [] 0 hzero (by decide) hfraction rfl
    rwa [List.append_nil, htext] at hparts
  · rw [Numeral.value]
    dsimp only
    rw [List.singleton_append, decimalValue_zero_cons, decimalValue_append (List.replicate zeros '0') digits,
      decimalValue_zeros zeros, Nat.zero_mul, Nat.zero_add, List.length_append, List.length_replicate]
    congr 2
    omega

theorem numeral?_text {d : Decimal} (h : Proper d) :
    ∃ n, numeral? d.text = some n ∧ n.isBig = false ∧ n.value = decimalNumber d := by
  rw [decimalNumber, Decimal.text]
  split
  · exact numeral?_pointed (by decide) h.digits h.first (exponent?_exponentText d.exponent)
  · split
    · next hneg =>
      obtain ⟨n, hn, hbig, hvalue⟩ := numeral?_small (d.exponent.natAbs - 1) h.digits h.ne_nil
      refine ⟨n, hn, hbig, ?_⟩
      rw [hvalue]
      congr 2
      omega
    · next hpos =>
      obtain ⟨n, hn, hbig, hvalue⟩ :=
        @numeral?_pointed d.digits [] _ 0 (Nat.succ_pos d.exponent.toNat) h.digits h.first rfl
      rw [List.append_nil] at hn
      refine ⟨n, hn, hbig, ?_⟩
      rw [hvalue]
      congr 2
      omega

/-! ### Doubles -/

/-- Cutting off the zeros at the end changes neither the number nor its first digit. -/
theorem proper_ofScaled {k : Nat} (hk : 0 < k) (p : Int) :
    Proper (ofScaled k p) ∧ decimalNumber (ofScaled k p) = k * 10 ^ p := by
  have hmem : ∀ c ∈ Nat.toDigits 10 k, isDigit c = true := fun c => isDigit_of_mem_toDigits
  have hvalue := decimalValue_toDigits k
  have hhead := head?_toDigits hk
  rw [decimalNumber, ofScaled]
  dsimp only
  generalize Nat.toDigits 10 k = digits at hmem hvalue hhead
  have hsplit : digits.rdropWhile (· == '0') ++ digits.rtakeWhile (· == '0') = digits :=
    List.rdropWhile_append_rtakeWhile
  have hzeros : digits.rtakeWhile (· == '0') =
      List.replicate (digits.rtakeWhile (· == '0')).length '0' := by
    apply List.eq_replicate_of_mem
    intro c hc
    exact beq_iff_eq.mp (List.mem_rtakeWhile_imp (p := (· == '0')) hc)
  change Proper ⟨digits.rdropWhile (· == '0'), _⟩ ∧
    (decimalValue (digits.rdropWhile (· == '0')) : ℚ) *
      10 ^ (p + digits.length - 1 + 1 - (digits.rdropWhile (· == '0')).length) = _
  generalize digits.rdropWhile (· == '0') = kept at hsplit
  rw [hzeros] at hsplit
  generalize (digits.rtakeWhile (· == '0')).length = n at hsplit
  subst hsplit
  refine ⟨⟨fun c hc => hmem c (List.mem_append_left _ hc), ?_⟩, ?_⟩
  · cases kept with
    | nil =>
      cases n with
      | zero | succ => cases hhead
    | cons => exact hhead
  · rw [← hvalue, decimalValue_append, decimalValue_zeros, List.length_append, List.length_replicate,
      Nat.add_zero, Nat.cast_mul, Nat.cast_pow, Nat.cast_ofNat, mul_assoc, ← zpow_natCast,
      ← zpow_add₀ (by norm_num)]
    congr 2
    omega

/-- The digits of a finite double, without its sign. -/
def magnitude (x : Float) : List Char :=
  match Binary64.ofFloat x with
  | .finite _ m q => if m == 0 then ['0'] else (shortest m q).text
  | _ => []

def isNegative (x : Float) : Bool :=
  match Binary64.ofFloat x with
  | .finite negative _ _ => negative
  | _ => false

theorem toList_floatText {x : Float} (h : x.isFinite) :
    (floatText x).toList = if isNegative x then '-' :: magnitude x else magnitude x := by
  obtain ⟨negative, m, q, hx, -, -⟩ := Binary64.ofFloat_of_isFinite h
  rw [floatText, isNegative, magnitude, hx]
  simp only [String.toList_ofList]

theorem numeral?_shortest {m : Nat} {q : Int} (h : Binary64.Parts m q) (hm : 0 < m) :
    ∃ n, numeral? (shortest m q).text = some n ∧ n.isBig = false ∧
      (Decimal.interval m q).Contains (q - 2) n.value := by
  obtain ⟨k, p, hshortest, hcontains⟩ := Decimal.contains_shortest h hm
  have hpos : (0 : ℚ) < k := pos_of_mul_pos_left (Decimal.pos_of_contains hm hcontains) (by positivity)
  obtain ⟨hproper, hnumber⟩ := proper_ofScaled (Nat.cast_pos.mp hpos) p
  obtain ⟨n, hn, hbig, hvalue⟩ := numeral?_text hproper
  refine ⟨n, hshortest ▸ hn, hbig, ?_⟩
  rwa [hvalue, hnumber]

theorem magnitude_eq {x : Float} {negative : Bool} {m : Nat} {q : Int}
    (h : Binary64.ofFloat x = .finite negative m q) :
    magnitude x = if m = 0 then ['0'] else (shortest m q).text := by
  rw [magnitude, h]
  simp

theorem numeral?_magnitude {x : Float} (h : x.isFinite) :
    ∃ n, numeral? (magnitude x) = some n ∧ n.isBig = false := by
  obtain ⟨negative, m, q, hx, hparts, -⟩ := Binary64.ofFloat_of_isFinite h
  rw [magnitude_eq hx]
  split
  · exact ⟨⟨['0'], [], 0, false⟩, by decide, rfl⟩
  · next hm =>
    obtain ⟨n, hn, hbig, -⟩ := numeral?_shortest hparts (Nat.pos_of_ne_zero hm)
    exact ⟨n, hn, hbig⟩

theorem parts_eq_of_text {m n : Nat} {q e : Int} (hm : Binary64.Parts m q) (hn : Binary64.Parts n e)
    (h : (if m = 0 then ['0'] else (shortest m q).text) =
      if n = 0 then ['0'] else (shortest n e).text) : m = n ∧ q = e := by
  have hzero : ∀ {k : Nat} {p : Int}, Binary64.Parts k p → 0 < k → (shortest k p).text ≠ ['0'] := by
    intro k p hparts hk htext
    obtain ⟨v, hv, -, hcontains⟩ := numeral?_shortest hparts hk
    rw [htext, show numeral? ['0'] = some ⟨['0'], [], 0, false⟩ from by decide] at hv
    cases hv
    have hpos := Decimal.pos_of_contains hk hcontains
    norm_num [Numeral.value, decimalValue] at hpos
  by_cases hm₀ : m = 0
  · by_cases hn₀ : n = 0
    · have hbit : 0 < Binary64.hiddenBit := by decide
      exact ⟨hm₀.trans hn₀.symm, (hm.normal (by omega)).trans (hn.normal (by omega)).symm⟩
    · rw [if_pos hm₀, if_neg hn₀] at h
      exact absurd h.symm (hzero hn (Nat.pos_of_ne_zero hn₀))
  · by_cases hn₀ : n = 0
    · rw [if_neg hm₀, if_pos hn₀] at h
      exact absurd h (hzero hm (Nat.pos_of_ne_zero hm₀))
    · rw [if_neg hm₀, if_neg hn₀] at h
      obtain ⟨v, hv, -, hcontains⟩ := numeral?_shortest hm (Nat.pos_of_ne_zero hm₀)
      obtain ⟨w, hw, -, hcontains'⟩ := numeral?_shortest hn (Nat.pos_of_ne_zero hn₀)
      rw [h, hw] at hv
      cases hv
      exact Decimal.eq_of_contains hm hn hcontains hcontains'

theorem eq_of_magnitude {x y : Float} (hx : x.isFinite) (hy : y.isFinite)
    (hsign : isNegative x = isNegative y) (h : magnitude x = magnitude y) : x = y := by
  obtain ⟨negative, m, q, hx, hm, hbits⟩ := Binary64.ofFloat_of_isFinite hx
  obtain ⟨negative', n, e, hy, hn, hbits'⟩ := Binary64.ofFloat_of_isFinite hy
  rw [magnitude_eq hx, magnitude_eq hy] at h
  obtain ⟨rfl, rfl⟩ := parts_eq_of_text hm hn h
  have hsame : negative = negative' := by simpa [isNegative, hx, hy] using hsign
  apply Binary64.toBits_inj
  rw [← UInt64.toNat_inj, hbits, hbits', hsame]

end JavaScript

end LemonScript
