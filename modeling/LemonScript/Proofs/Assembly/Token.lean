import LemonScript.Assembly.Token
import LemonScript.Proofs.Text.Digits
import LemonScript.Proofs.Text.Utf8
/-!
# The tokens of an assembly text

Bytes between quotes are read back, and so are names, with quotes or without. A text spells its tokens if
it is read as them whatever follows; a word, which goes on as long as it can, spells them only if something
follows that cannot continue it.
-/

namespace LemonScript.Assembly

open List (append_assoc cons_append reverse_reverse singleton_append)

/-! ### Bytes between quotes -/

variable {c : Char} {sigil : Sigil} {t : AsmToken} {name : String}
variable {b : UInt8} {r : Reading} {ts : List AsmToken} {w : List Char}

theorem upperHex {n : Nat} (hn : n < 256) : ∃ a b, (hexText 2 n).map Char.toUpper = [a, b] ∧
    isHexDigit a ∧ isHexDigit b ∧ hexNumber [a, b] = n := by
  have hupper : ∀ d < 16, isHexDigit (Nat.digitChar d).toUpper = true ∧
      hexValue (Nat.digitChar d).toUpper = hexValue (Nat.digitChar d) := by decide
  have hlength : (hexText 2 n).length = 2 := length_hexText (by decide) hn
  obtain ⟨a, b, hab⟩ := List.length_eq_two.1 hlength
  have hnumber := hexNumber_hexText 2 n
  obtain ⟨d, hd, rfl⟩ := digitChar_of_mem_hexText (c := a) (by rw [hab]; simp)
  obtain ⟨e, he, rfl⟩ := digitChar_of_mem_hexText (c := b) (by rw [hab]; simp)
  rw [hab] at hnumber ⊢
  refine ⟨_, _, rfl, (hupper d hd).1, (hupper e he).1, ?_⟩
  simpa [hexNumber, (hupper d hd).2, (hupper e he).2] using hnumber

theorem isPlainByte_iff : isPlainByte b ↔
    0x20 ≤ b.toNat ∧ b.toNat ≤ 0x7E ∧ b.toNat ≠ 0x22 ∧ b.toNat ≠ 0x5C := by
  simp only [isPlainByte, Bool.and_eq_true, decide_eq_true_eq, bne_iff_ne, ne_eq, UInt8.le_iff_toNat_le,
    ← UInt8.toNat_inj, and_assoc]
  rfl

theorem toNat_ofUInt8 (b : UInt8) : (Char.ofUInt8 b).toNat = b.toNat := by
  simp [Char.ofUInt8, Char.toNat]

theorem utf8EncodeChar_ofUInt8 (h : b.toNat < 0x80) :
    String.utf8EncodeChar (Char.ofUInt8 b) = [b] := by
  have hform := utf8_char (Char.ofUInt8 b)
  rw [toNat_ofUInt8] at hform
  rw [hform.eq_singleton h, UInt8.ofNat_toNat]

theorem unescape_escapeByte (b : UInt8) (rest : List Char) :
    unescape (escapeByte b ++ rest) = b :: unescape rest := by
  unfold escapeByte
  split
  · next hplain =>
    obtain ⟨-, hhigh, -, hslash⟩ := isPlainByte_iff.1 hplain
    have hne : Char.ofUInt8 b ≠ '\\' := by
      intro heq
      exact hslash ((toNat_ofUInt8 b).symm.trans (congrArg Char.toNat heq))
    have hbytes : (Char.ofUInt8 b).toString.toUTF8.toList = [b] := by
      rw [toList_toUTF8]
      simp [utf8EncodeChar_ofUInt8 (show b.toNat < 0x80 by omega)]
    rw [singleton_append, unescape, hbytes, singleton_append]
    · exact fun _ h => absurd h hne
    · exact fun _ _ _ h => absurd h hne
  · obtain ⟨d, e, hdigits, hd, he, hnumber⟩ := upperHex b.toNat_lt
    have hne : d ≠ '\\' := by
      rintro rfl
      exact absurd hd (by decide)
    rw [hdigits, cons_append, cons_append, cons_append, List.nil_append, unescape,
      if_pos (by rw [hd, he]; rfl), hnumber, UInt8.ofNat_toNat]
    exact fun h => absurd h hne

theorem unescape_escape (bytes : List UInt8) : unescape (escape bytes) = bytes := by
  unfold escape
  induction bytes with
  | nil => rfl
  | cons b bytes ih => rw [List.flatMap_cons, unescape_escapeByte, ih]

theorem quote_not_mem_escape (bytes : List UInt8) : '"' ∉ escape bytes := by
  intro h
  obtain ⟨b, -, hb⟩ := List.mem_flatMap.1 h
  unfold escapeByte at hb
  split at hb
  · next hplain =>
    have heq := congrArg Char.toNat (List.mem_singleton.1 hb)
    rw [toNat_ofUInt8] at heq
    exact (isPlainByte_iff.1 hplain).2.2.1 heq.symm
  · obtain ⟨d, e, hdigits, hd, he, -⟩ := upperHex b.toNat_lt
    rw [hdigits] at hb
    simp only [List.mem_cons, List.not_mem_nil, or_false] at hb
    rcases hb with hb | rfl | rfl
    · exact absurd hb (by decide)
    · exact absurd hd (by decide)
    · exact absurd he (by decide)

/-! ### Texts that spell tokens -/

/-- The text is read as these tokens, whatever follows. -/
def Spells (text : String) (ts : List AsmToken) : Prop :=
  ∀ rest, tokensFrom .between (text.toList ++ rest) = (tokensFrom .between rest).map (ts ++ ·)

def isDelimiter (c : Char) : Bool := !isWordChar c && c != '"'

/-- The text is read as these tokens if a character follows that ends a word. -/
def Ends (text : String) (ts : List AsmToken) : Prop :=
  ∀ c rest, isDelimiter c = true →
    tokensFrom .between (text.toList ++ c :: rest) = (tokensFrom .between (c :: rest)).map (ts ++ ·)

def Delimits (text : String) : Prop := ∃ c cs, text.toList = c :: cs ∧ isDelimiter c = true

section Spelling

variable {s t : String} {ts us : List AsmToken}

theorem spells_empty : Spells "" [] := by
  intro rest
  simp

theorem Spells.ends (hs : Spells s ts) : Ends s ts := fun c rest _ => hs (c :: rest)

theorem map_append_map (ts us : List AsmToken) (o : Option (List AsmToken)) :
    (o.map (us ++ ·)).map (ts ++ ·) = o.map (ts ++ us ++ ·) := by
  rw [Option.map_map]
  congr 1
  funext vs
  exact (append_assoc ts us vs).symm

theorem Spells.append (hs : Spells s ts) (ht : Spells t us) : Spells (s ++ t) (ts ++ us) := by
  intro rest
  rw [String.toList_append, append_assoc, hs, ht, map_append_map]

theorem Spells.append_ends (hs : Spells s ts) (ht : Ends t us) : Ends (s ++ t) (ts ++ us) := by
  intro c rest hc
  rw [String.toList_append, append_assoc, hs, ht c rest hc, map_append_map]

theorem Ends.append (hs : Ends s ts) (ht : Spells t us) (hdelimits : Delimits t) :
    Spells (s ++ t) (ts ++ us) := by
  obtain ⟨c, cs, hcs, hc⟩ := hdelimits
  intro rest
  have hrest := ht rest
  rw [hcs, cons_append] at hrest
  rw [String.toList_append, hcs, append_assoc, cons_append, hs c _ hc, hrest, map_append_map]

theorem Ends.append_ends (hs : Ends s ts) (ht : Ends t us) (hdelimits : Delimits t) :
    Ends (s ++ t) (ts ++ us) := by
  obtain ⟨c, cs, hcs, hc⟩ := hdelimits
  intro d rest hd
  have hrest := ht d rest hd
  rw [hcs, cons_append] at hrest
  rw [String.toList_append, hcs, append_assoc, cons_append, hs c _ hc, hrest, map_append_map]

end Spelling

/-! ### Single tokens -/

theorem tokensFrom_step (r : Reading) (c : Char) (rest : List Char) :
    tokensFrom r (c :: rest) = (step r c).bind fun p => (tokensFrom p.2 rest).map (p.1 ++ ·) := by
  simp only [Option.map_eq_bind]
  cases r <;> rfl

theorem tokensFrom_cons {r' : Reading} (h : step r c = some (ts, r')) (rest : List Char) :
    tokensFrom r (c :: rest) = (tokensFrom r' rest).map (ts ++ ·) := by
  rw [tokensFrom_step, h, Option.bind_some]

theorem spells_char (h : start c = some (ts, .between)) : Spells (String.singleton c) ts := by
  intro rest
  rw [String.toList_singleton, singleton_append]
  exact tokensFrom_cons (r := .between) h rest

/-! ### Words and names -/

theorem map_nil_append (o : Option (List AsmToken)) : o.map ([] ++ ·) = o := by
  simp

theorem tokensFrom_name (hw : ∀ c ∈ w, isWordChar c) (seen rest : List Char) :
    tokensFrom (.name sigil seen) (w ++ rest) = tokensFrom (.name sigil (w.reverse ++ seen)) rest := by
  induction w generalizing seen with
  | nil => rfl
  | cons c w ih =>
    obtain ⟨hc, hw⟩ := List.forall_mem_cons.1 hw
    have hstep : step (.name sigil seen) c = some ([], .name sigil (c :: seen)) := by
      rw [step, if_pos hc]
    rw [cons_append, tokensFrom_cons hstep, map_nil_append, ih hw, List.reverse_cons,
      append_assoc, singleton_append]

theorem tokensFrom_name_end {seen : List Char} (htoken : nameToken? sigil seen = some t)
    (hc : isDelimiter c) (rest : List Char) :
    tokensFrom (.name sigil seen) (c :: rest) = (tokensFrom .between (c :: rest)).map ([t] ++ ·) := by
  simp only [isDelimiter, Bool.and_eq_true, Bool.not_eq_true', bne_iff_ne, ne_eq] at hc
  have hstep : step (.name sigil seen) c = (start c).map fun p => (t :: p.1, p.2) := by
    rw [step, if_neg (by simp [hc.1]), if_neg (by simp [hc.2]), if_neg (by simp [hc.2]), htoken,
      Option.map_eq_bind]
    rfl
  rw [tokensFrom_step, tokensFrom_step, hstep, step]
  cases start c with
  | none => rfl
  | some p =>
    rw [Option.map_some, Option.bind_some, Option.bind_some, map_append_map]
    rfl

theorem start_of_isWordChar (h : isWordChar c) : start c = some ([], .name .plain [c]) := by
  have hne : ∀ d, isWordChar d = false → ¬ c = d := by
    rintro d hd rfl
    rw [hd] at h
    cases h
  simp [start, h, hne ' ' (by decide), hne '\t' (by decide), hne '\n' (by decide), hne '\r' (by decide),
    hne ';' (by decide), hne '@' (by decide), hne '%' (by decide), hne '"' (by decide)]

theorem ends_word {w : String} (hne : w ≠ "") (hw : w.toList.all isWordChar) :
    Ends w [.word w.toList] := by
  intro d rest hd
  obtain ⟨c, cs, hcs⟩ := List.exists_cons_of_ne_nil (mt String.toList_eq_nil_iff.1 hne)
  rw [hcs] at hw ⊢
  obtain ⟨hc, htail⟩ := List.forall_mem_cons.1 (List.all_eq_true.1 hw)
  rw [cons_append, tokensFrom_cons (r := .between) (start_of_isWordChar hc), map_nil_append,
    tokensFrom_name htail, tokensFrom_name_end (t := .word (c :: cs)) _ hd]
  simp [nameToken?]

theorem ends_sigil (hstart : start c = some ([], .name sigil [])) {w : String}
    (hw : ∀ c ∈ w.toList, isWordChar c) (htoken : nameToken? sigil w.toList.reverse = some t) :
    Ends (String.singleton c ++ w) [t] := by
  intro d rest hd
  rw [String.toList_append, String.toList_singleton, append_assoc, singleton_append,
    tokensFrom_cons (r := .between) hstart, map_nil_append, tokensFrom_name hw, List.append_nil,
    tokensFrom_name_end htoken hd]

theorem tokensFrom_quoted (hw : '"' ∉ w) (seen rest : List Char) :
    tokensFrom (.quoted sigil seen) (w ++ '"' :: rest) =
      (tokensFrom .between rest).map ([quotedToken sigil (w.reverse ++ seen)] ++ ·) := by
  induction w generalizing seen with
  | nil =>
    have hstep : step (.quoted sigil seen) '"' = some ([quotedToken sigil seen], .between) := by
      rw [step, if_pos (by decide)]
    exact tokensFrom_cons hstep rest
  | cons c w ih =>
    have hc : ¬ (c == '"') = true := by
      rw [beq_iff_eq]
      rintro rfl
      exact hw List.mem_cons_self
    have hstep : step (.quoted sigil seen) c = some ([], .quoted sigil (c :: seen)) := by
      rw [step, if_neg hc]
    rw [cons_append, tokensFrom_cons hstep, map_nil_append, ih (fun h => hw (.tail c h)),
      List.reverse_cons, append_assoc, singleton_append]

theorem tokensFrom_quotedBytes (hopen : step r '"' = some ([], .quoted sigil []))
    {bytes : List UInt8} (htoken : quotedToken sigil (escape bytes).reverse = t) (rest : List Char) :
    tokensFrom r ((quotedBytes bytes).toList ++ rest) = (tokensFrom .between rest).map ([t] ++ ·) := by
  have hlist : (quotedBytes bytes).toList ++ rest = '"' :: (escape bytes ++ '"' :: rest) := by
    simp [quotedBytes]
  rw [hlist, tokensFrom_cons hopen, map_nil_append, tokensFrom_quoted (quote_not_mem_escape bytes),
    List.append_nil, htoken]

theorem spells_text (bytes : List UInt8) : Spells (quotedBytes bytes) [.text bytes] := by
  refine tokensFrom_quotedBytes (r := .between) rfl ?_
  rw [quotedToken, reverse_reverse, unescape_escape]

theorem spells_bytes (bytes : List UInt8) : Spells ("c" ++ quotedBytes bytes) [.bytes bytes] := by
  intro rest
  have hstart : step .between 'c' = some ([], .name .plain ['c']) := start_of_isWordChar (by decide)
  have hopen : step (.name .plain ['c']) '"' = some ([], .quoted .bytes []) := rfl
  rw [String.toList_append, append_assoc, show "c".toList = ['c'] from rfl, singleton_append,
    tokensFrom_cons hstart, map_nil_append]
  refine tokensFrom_quotedBytes hopen ?_ rest
  rw [quotedToken, reverse_reverse, unescape_escape]

theorem isWordChar_of_isNameByte (h : ∀ b ∈ String.utf8EncodeChar c, isNameByte b) :
    isWordChar c := by
  have hascii : ∀ n < 256, isNameByte (.ofNat n) = true → n < 0x80 := by decide +kernel
  have hlow : c.toNat < 0x80 := by
    refine (utf8_char c).lt_of_forall_lt fun b hb => hascii b.toNat b.toNat_lt ?_
    rw [UInt8.ofNat_toNat]
    exact h b hb
  have hname := h (.ofNat c.toNat) (by rw [(utf8_char c).eq_singleton hlow]; simp)
  have hchar : Char.ofUInt8 (.ofNat c.toNat) = c := by
    rw [← Char.toNat_inj, toNat_ofUInt8, UInt8.toNat_ofNat_of_lt' (by simp only [UInt8.size]; omega)]
  rw [isNameByte, hchar] at hname
  exact hname

theorem ends_name (hstart : start c = some ([], .name sigil []))
    (hplain : nameToken? sigil name.toList.reverse = some t)
    (hquoted : quotedToken sigil (escape name.toUTF8.toList).reverse = t) :
    Ends (String.singleton c ++ nameText name) [t] := by
  unfold nameText
  dsimp only
  split
  · next hall =>
    refine ends_sigil hstart (fun d hd => isWordChar_of_isNameByte fun b hb => ?_) hplain
    refine List.all_eq_true.1 hall b ?_
    rw [toList_toUTF8]
    exact List.mem_flatMap.2 ⟨d, hd, hb⟩
  · refine Spells.ends fun rest => ?_
    have hopen : step (.name sigil []) '"' = some ([], .quoted sigil []) := by
      rw [step, if_neg (by decide), if_pos (by decide)]
    rw [String.toList_append, String.toList_singleton, append_assoc, singleton_append,
      tokensFrom_cons (r := .between) hstart, map_nil_append]
    exact tokensFrom_quotedBytes hopen hquoted rest

theorem ends_global (hne : name ≠ "") : Ends ("@" ++ nameText name) [.global name] := by
  refine ends_name (c := '@') rfl ?_ ?_
  · simp [nameToken?, hne]
  · rw [quotedToken, reverse_reverse, unescape_escape, decodeUtf8_toUTF8]

theorem ends_local (hne : name ≠ "") : Ends ("%" ++ nameText name) [.local name] := by
  refine ends_name (c := '%') rfl ?_ ?_
  · simp [nameToken?, hne]
  · rw [quotedToken, reverse_reverse, unescape_escape, decodeUtf8_toUTF8]

end LemonScript.Assembly
