import Mathlib
import LemonScript.Text.Utf8
/-!
# Text and its bytes

A character takes one to four bytes. The bytes of a text are read back as the text, and two texts are
ordered as their bytes are.
-/

namespace LemonScript

open UInt8 (le_iff_toNat_le toNat_ofNat_of_lt')
open List (cons_append flatMap_cons length_cons length_nil nil_append)

/-! ### The bytes of a text -/

variable {v n : Nat} {bytes : List UInt8}

theorem toList_loop (bytes : ByteArray) (i : Nat) (seen : List UInt8) :
    ByteArray.toList.loop bytes i seen = seen.reverse ++ bytes.data.toList.drop i := by
  fun_induction ByteArray.toList.loop bytes i seen with
  | case1 i seen h ih =>
    have hi : i < bytes.data.toList.length := by simpa using h
    rw [ih, List.drop_eq_getElem_cons hi]
    simp [ByteArray.get!, h]
  | case2 i seen h =>
    rw [List.drop_eq_nil_of_le (by simpa using Nat.le_of_not_lt h), List.append_nil]

theorem toList_toByteArray (bytes : List UInt8) : bytes.toByteArray.toList = bytes := by
  rw [ByteArray.toList, toList_loop, List.toList_data_toByteArray]
  rfl

theorem toList_toUTF8 (text : String) :
    text.toUTF8.toList = text.toList.flatMap String.utf8EncodeChar := by
  have hbytes : text.toUTF8 = text.toList.utf8Encode := String.utf8Encode_toList.symm
  rw [hbytes, List.utf8Encode, toList_toByteArray]

/-- The bytes of a character with a number, by how many they are. The first byte tells the number of
bytes and holds the highest digit of the number in base 64; each of the others holds one digit. -/
inductive Utf8 (v : Nat) : List UInt8 → Prop
  | one (high : v < 0x80) : Utf8 v [.ofNat v]
  | two {a b : Nat} (digits : v = a * 64 + b) (hb : b < 64) (low : 0x80 ≤ v) (high : v < 0x800) :
      Utf8 v [.ofNat (a + 0xC0), .ofNat (b + 0x80)]
  | three {a b c : Nat} (digits : v = (a * 64 + b) * 64 + c) (hb : b < 64) (hc : c < 64)
      (low : 0x800 ≤ v) (high : v < 0x10000) (whole : v < 0xD800 ∨ 0xE000 ≤ v) :
      Utf8 v [.ofNat (a + 0xE0), .ofNat (b + 0x80), .ofNat (c + 0x80)]
  | four {a b c d : Nat} (digits : v = ((a * 64 + b) * 64 + c) * 64 + d) (hb : b < 64) (hc : c < 64)
      (hd : d < 64) (low : 0x10000 ≤ v) (high : v < 0x110000) :
      Utf8 v [.ofNat (a + 0xF0), .ofNat (b + 0x80), .ofNat (c + 0x80), .ofNat (d + 0x80)]

theorem utf8_char (c : Char) : Utf8 c.toNat (String.utf8EncodeChar c) := by
  have hvalid : c.toNat < 0xD800 ∨ 0xDFFF < c.toNat ∧ c.toNat < 0x110000 := c.valid
  unfold String.utf8EncodeChar
  change Utf8 c.toNat (if c.toNat ≤ 127 then [UInt8.ofNat c.toNat]
    else if c.toNat ≤ 2047 then [.ofNat (c.toNat / 64 % 32 + 192), .ofNat (c.toNat % 64 + 128)]
    else if c.toNat ≤ 65535 then [.ofNat (c.toNat / 4096 % 16 + 224), .ofNat (c.toNat / 64 % 64 + 128),
      .ofNat (c.toNat % 64 + 128)]
    else [.ofNat (c.toNat / 262144 % 8 + 240), .ofNat (c.toNat / 4096 % 64 + 128),
      .ofNat (c.toNat / 64 % 64 + 128), .ofNat (c.toNat % 64 + 128)])
  generalize c.toNat = v at hvalid
  split_ifs with h1 h2 h3
  · exact .one (by omega)
  · exact .two (by omega) (Nat.mod_lt _ (by decide)) (by omega) (by omega)
  · exact .three (by omega) (by omega) (by omega) (by omega) (by omega) (by omega)
  · exact .four (by omega) (by omega) (by omega) (by omega) (by omega) (by omega)

theorem Utf8.eq_singleton (h : Utf8 v bytes) (hv : v < 0x80) : bytes = [.ofNat v] := by
  cases h with
  | one _ => rfl
  | _ => omega

theorem Utf8.lt_of_forall_lt (h : Utf8 v bytes) (hbytes : ∀ b ∈ bytes, b.toNat < 0x80) :
    v < 0x80 := by
  cases h with
  | one high => exact high
  | _ =>
    have hfirst := hbytes _ List.mem_cons_self
    rw [toNat_ofNat_of_lt' (by simp only [UInt8.size]; omega)] at hfirst
    omega

/-! ### Reading bytes -/

theorem ofNat_lt_ofNat {m : Nat} (hm : m < 256) (hn : n < 256) :
    UInt8.ofNat m < UInt8.ofNat n ↔ m < n := by
  rw [UInt8.lt_iff_toNat_lt, toNat_ofNat_of_lt' hm, toNat_ofNat_of_lt' hn]

theorem ofNat_eq_ofNat {m : Nat} (hm : m < 256) (hn : n < 256) :
    UInt8.ofNat m = UInt8.ofNat n ↔ m = n := by
  rw [← UInt8.toNat_inj, toNat_ofNat_of_lt' hm, toNat_ofNat_of_lt' hn]

theorem secondByte?_ofNat (hn : n < 256) : secondByte? (.ofNat n) =
    if 0xC2 ≤ n ∧ n ≤ 0xDF then some (0x80, 0xBF, 2)
    else if n = 0xE0 then some (0xA0, 0xBF, 3)
    else if n = 0xED then some (0x80, 0x9F, 3)
    else if 0xE1 ≤ n ∧ n ≤ 0xEF then some (0x80, 0xBF, 3)
    else if n = 0xF0 then some (0x90, 0xBF, 4)
    else if 0xF1 ≤ n ∧ n ≤ 0xF3 then some (0x80, 0xBF, 4)
    else if n = 0xF4 then some (0x80, 0x8F, 4)
    else none := by
  unfold secondByte?
  simp only [le_iff_toNat_le, ← UInt8.toNat_inj, beq_iff_eq, Bool.and_eq_true, decide_eq_true_eq,
    toNat_ofNat_of_lt' hn]
  rfl

theorem sixBits_ofNat (hn : n < 64) : sixBits (.ofNat (n + 0x80)) = n := by
  rw [sixBits, toNat_ofNat_of_lt' (by simp only [UInt8.size]; omega)]
  omega

theorem le_ofNat_iff {low : UInt8} (hn : n < 64) :
    low ≤ .ofNat (n + 0x80) ↔ low.toNat ≤ n + 0x80 := by
  rw [le_iff_toNat_le, toNat_ofNat_of_lt' (by simp only [UInt8.size]; omega)]

theorem ofNat_le_iff {high : UInt8} (hn : n < 64) :
    .ofNat (n + 0x80) ≤ high ↔ n + 0x80 ≤ high.toNat := by
  rw [le_iff_toNat_le, toNat_ofNat_of_lt' (by simp only [UInt8.size]; omega)]

theorem isContinuation_ofNat (hn : n < 64) : isContinuation (.ofNat (n + 0x80)) := by
  simp only [isContinuation, Bool.and_eq_true, decide_eq_true_eq, le_ofNat_iff hn, ofNat_le_iff hn]
  exact ⟨by simp, by simp; omega⟩

theorem not_ofNat_lt (hlow : 0x80 ≤ n) (hhigh : n < 256) : ¬ UInt8.ofNat n < 0x80 := by
  rw [show (0x80 : UInt8) = .ofNat 0x80 from rfl, ofNat_lt_ofNat hhigh (by decide)]
  omega

/-- Behind the first byte `n` of a character of three or four bytes, a second byte is read unless the
form is overlong, a surrogate or beyond the last character. -/
theorem secondByte?_range {b : Nat} (hlow : 0xE0 ≤ n) (hhigh : n ≤ 0xF4) (hb : b < 64)
    (h3 : n = 0xE0 → 32 ≤ b) (hsurrogate : n = 0xED → b < 32) (h4 : n = 0xF0 → 16 ≤ b)
    (hlast : n = 0xF4 → b < 16) :
    ∃ least most, secondByte? (.ofNat n) = some (least, most, if n < 0xF0 then 3 else 4) ∧
      (least ≤ UInt8.ofNat (b + 0x80) && UInt8.ofNat (b + 0x80) ≤ most) := by
  rw [secondByte?_ofNat (by omega), if_neg (by omega)]
  simp only [Bool.and_eq_true, decide_eq_true_eq]
  split_ifs
  any_goals omega
  all_goals
    refine ⟨_, _, rfl, (le_ofNat_iff hb).2 ?_, (ofNat_le_iff hb).2 ?_⟩ <;> simp <;> omega

theorem firstChar_of_utf8 (h : Utf8 v bytes) (rest : List UInt8) :
    firstChar (bytes ++ rest) = (Char.ofNat v, bytes.length) := by
  cases h with
  | one high =>
    have hbyte : UInt8.ofNat v < 0x80 := (ofNat_lt_ofNat (n := 0x80) (by omega) (by decide)).2 high
    have hvalue : (UInt8.ofNat v).toNat = v :=
      toNat_ofNat_of_lt' (by simp only [UInt8.size]; omega)
    simp only [cons_append, nil_append, firstChar, if_pos hbyte, hvalue, length_cons,
      length_nil]
  | @two a b digits hb low high =>
    have ha : a + 0xC0 < 256 := by omega
    have hsecond : secondByte? (.ofNat (a + 0xC0)) = some (0x80, 0xBF, 2) := by
      rw [secondByte?_ofNat ha, if_pos (by omega)]
    have hvalue : (UInt8.ofNat (a + 0xC0)).toNat % 0x20 * 0x40 + sixBits (.ofNat (b + 0x80)) = v := by
      rw [sixBits_ofNat hb, toNat_ofNat_of_lt' ha]
      omega
    have hrange : (0x80 ≤ UInt8.ofNat (b + 0x80) && UInt8.ofNat (b + 0x80) ≤ 0xBF) = true :=
      isContinuation_ofNat hb
    simp only [cons_append, nil_append, firstChar, if_neg (not_ofNat_lt (by omega) ha),
      hsecond, hrange, hvalue, if_true, length_cons, length_nil]
  | @three a b c digits hb hc low high whole =>
    have ha : a + 0xE0 < 256 := by omega
    obtain ⟨least, most, hsecond, hrange⟩ := secondByte?_range (n := a + 0xE0) (by omega) (by omega) hb
      (by omega) (by omega) (by omega) (by omega)
    rw [if_pos (by omega)] at hsecond
    have hvalue : ((UInt8.ofNat (a + 0xE0)).toNat % 0x10 * 0x40 + sixBits (.ofNat (b + 0x80))) * 0x40 +
        sixBits (.ofNat (c + 0x80)) = v := by
      rw [sixBits_ofNat hb, sixBits_ofNat hc, toNat_ofNat_of_lt' ha]
      omega
    simp only [cons_append, nil_append, firstChar, if_neg (not_ofNat_lt (by omega) ha),
      hsecond, hrange, isContinuation_ofNat hc, Bool.and_true, hvalue, if_true, length_cons,
      length_nil]
  | @four a b c d digits hb hc hd low high =>
    have ha : a + 0xF0 < 256 := by omega
    obtain ⟨least, most, hsecond, hrange⟩ := secondByte?_range (n := a + 0xF0) (by omega) (by omega) hb
      (by omega) (by omega) (by omega) (by omega)
    rw [if_neg (by omega)] at hsecond
    have hvalue : (((UInt8.ofNat (a + 0xF0)).toNat % 0x08 * 0x40 + sixBits (.ofNat (b + 0x80))) * 0x40 +
        sixBits (.ofNat (c + 0x80))) * 0x40 + sixBits (.ofNat (d + 0x80)) = v := by
      rw [sixBits_ofNat hb, sixBits_ofNat hc, sixBits_ofNat hd, toNat_ofNat_of_lt' ha]
      omega
    simp only [cons_append, nil_append, firstChar, if_neg (not_ofNat_lt (by omega) ha),
      hsecond, hrange, isContinuation_ofNat hc, isContinuation_ofNat hd, Bool.and_true, hvalue, if_true,
      length_cons, length_nil]

theorem decodeFrom_length (bytes rest : List UInt8) :
    decodeFrom bytes.length (bytes ++ rest) = decodeFrom 0 rest := by
  induction bytes with
  | nil => rfl
  | cons b bytes ih => exact ih

theorem decodeFrom_char (c : Char) (rest : List UInt8) :
    decodeFrom 0 (String.utf8EncodeChar c ++ rest) = c :: decodeFrom 0 rest := by
  have hfirst := firstChar_of_utf8 (utf8_char c) rest
  rw [Char.ofNat_toNat] at hfirst
  obtain ⟨b, bytes, hbytes⟩ := List.exists_cons_of_ne_nil (String.utf8EncodeChar_ne_nil (c := c))
  rw [hbytes, cons_append] at hfirst ⊢
  simp only [decodeFrom, hfirst, length_cons, Nat.add_sub_cancel, decodeFrom_length]

/-- The bytes of a text are read back as the text. -/
theorem decodeUtf8_toUTF8 (text : String) : decodeUtf8 text.toUTF8.toList = text := by
  have hchars : ∀ cs : List Char, decodeFrom 0 (cs.flatMap String.utf8EncodeChar) = cs := by
    intro cs
    induction cs with
    | nil => rfl
    | cons c cs ih => rw [flatMap_cons, decodeFrom_char, ih]
  rw [decodeUtf8, toList_toUTF8, hchars, String.ofList_toList]

/-! ### Order -/

theorem Utf8.lt {w : Nat} {xs ys : List UInt8} (hx : Utf8 v xs) (hy : Utf8 w ys) (h : v < w)
    (xs' ys' : List UInt8) : xs ++ xs' < ys ++ ys' := by
  cases hx <;> cases hy
  all_goals
    simp (disch := omega) only [cons_append, nil_append, List.cons_lt_cons_iff, ofNat_lt_ofNat,
      ofNat_eq_ofNat]
    omega

theorem flatMap_utf8_lt {cs ds : List Char} (h : cs < ds) :
    cs.flatMap String.utf8EncodeChar < ds.flatMap String.utf8EncodeChar := by
  induction cs generalizing ds with
  | nil =>
    cases ds with
    | nil => exact absurd h (List.lt_irrefl [])
    | cons d ds =>
      obtain ⟨b, bytes, hbytes⟩ := List.exists_cons_of_ne_nil (String.utf8EncodeChar_ne_nil (c := d))
      rw [List.flatMap_nil, flatMap_cons, hbytes]
      exact List.nil_lt_cons b _
  | cons c cs ih =>
    cases ds with
    | nil => exact absurd h (List.not_lt_nil _)
    | cons d ds =>
      rw [flatMap_cons, flatMap_cons]
      rcases List.cons_lt_cons_iff.1 h with hlt | ⟨rfl, hlt⟩
      · exact (utf8_char c).lt (utf8_char d) hlt _ _
      · exact List.append_left_lt (ih hlt)

/-- Texts are ordered as their bytes are. -/
theorem lt_iff_bytes_lt (s t : String) : s < t ↔ s.toUTF8.toList < t.toUTF8.toList := by
  rw [toList_toUTF8, toList_toUTF8]
  refine ⟨fun h => flatMap_utf8_lt h, fun h => ?_⟩
  rcases lt_trichotomy s t with hlt | rfl | hgt
  · exact hlt
  · exact absurd h (List.lt_irrefl _)
  · exact absurd h (List.lt_asymm (flatMap_utf8_lt hgt))

end LemonScript
