import LemonScript.Proofs.JavaScript.Spelling
import LemonScript.Proofs.JavaScript.Term
import LemonScript.Proofs.Token.Line
/-!
# Texts of JavaScript expressions

How the texts of expressions are put together, and what they are read as: names, literals, operations in
parentheses, calls and lists. A text is tight if it may be called, indexed or raised to a power, loose if it
may be an operand of the other operators, and whole if it may stand between brackets and commas.
-/

namespace LemonScript

open List (append_assoc)
open String (toList_append toList_ofList)

namespace JavaScript

/-! ### Texts and what they are read as -/

variable {table : List Int} {a b : String} {t u : Term}

def TightText (text : String) (t : Term) : Prop := ∃ ts, Scans text ts ∧ Tight ts t

def LooseText (text : String) (t : Term) : Prop := ∃ ts, Scans text ts ∧ Loose ts t

def WholeText (text : String) (t : Term) : Prop := ∃ ts, Scans text ts ∧ Whole ts t

variable {texts : List String} {l : List Term} {id : Int} {name : String} {letters : List Char}
  {n : Numeral}
variable {mark op : String} {up : Bool}

theorem TightText.loose : TightText a t → LooseText a t
  | ⟨ts, hts, h⟩ => ⟨ts, hts, h.loose⟩

theorem LooseText.whole : LooseText a t → WholeText a t
  | ⟨ts, hts, h⟩ => ⟨ts, hts, h.whole⟩

theorem WholeText.ofText?_eq (h : WholeText a t) : Term.ofText? a = some t := by
  obtain ⟨ts, hts, h⟩ := h
  rw [Term.ofText?, hts.lexemes_eq, Option.bind_some, h.read_eq]

theorem WholeText.group (h : WholeText a t) : TightText ("(" ++ a ++ ")") (.group t) := by
  obtain ⟨ts, hts, h⟩ := h
  have hopen : Cuts "(" [.mark (.opening .round)] := cuts_fixed "(" (by decide)
  have hclose : Cuts ")" [.mark (.closing .round)] := cuts_fixed ")" (by decide)
  exact ⟨_, ((hopen.followed hts).cut hclose (by decide)).scans, h.group⟩

theorem WholeText.signed {s : Sign} (hmark : Cuts (mark ++ "(") [s.lexeme, .mark (.opening .round)])
    (h : WholeText a t) : LooseText (mark ++ "(" ++ a ++ ")") (.signed s (.group t)) := by
  obtain ⟨ts, hts, h⟩ := h
  have hclose : Cuts ")" [.mark (.closing .round)] := cuts_fixed ")" (by decide)
  exact ⟨_, ((hmark.followed hts).cut hclose (by decide)).scans, h.group.loose.signed s⟩

theorem TightText.index (ha : TightText a t) (hb : WholeText b u) :
    TightText (a ++ "[" ++ b ++ "]") (.index t u) := by
  obtain ⟨ts, hts, ht⟩ := ha
  obtain ⟨us, hus, hu⟩ := hb
  have hopen : Cuts "[" [.mark (.opening .square)] := cuts_fixed "[" (by decide)
  have hclose : Cuts "]" [.mark (.closing .square)] := cuts_fixed "]" (by decide)
  have hscan := ((hts.cut hopen (by decide)).followed hus).cut hclose (by decide)
  refine ⟨_, hscan.scans, ?_⟩
  rw [append_assoc, append_assoc]
  exact ht.index hu

theorem LooseText.operation {o : Operator} (hop : Cuts op [.mark (.operator o)])
    (hstop : opensWithStop op) (hpow : o ≠ .pow) (ha : LooseText a t) (hb : LooseText b u) :
    WholeText (a ++ op ++ b) (.operation t o u) := by
  obtain ⟨ts, hts, ht⟩ := ha
  obtain ⟨us, hus, hu⟩ := hb
  refine ⟨_, (hts.cut hop hstop).followed hus, ?_⟩
  rw [append_assoc]
  exact ht.operation hu hpow

theorem TightText.power (ha : TightText a t) (hb : LooseText b u) :
    WholeText (a ++ " ** " ++ b) (.operation t .pow u) := by
  obtain ⟨ts, hts, ht⟩ := ha
  obtain ⟨us, hus, hu⟩ := hb
  have hop : Cuts " ** " [.mark (.operator .pow)] := cuts_fixed " ** " (by decide)
  refine ⟨_, (hts.cut hop (by decide)).followed hus, ?_⟩
  rw [append_assoc]
  exact ht.power hu

theorem TightText.change (hop : Cuts op [.mark (.change up)]) (hstop : opensWithStop op)
    (ha : TightText a t) (htarget : t.isTarget) (hb : LooseText b u) :
    WholeText (a ++ op ++ b) (.change t up u) := by
  obtain ⟨ts, hts, ht⟩ := ha
  obtain ⟨us, hus, hu⟩ := hb
  refine ⟨_, (hts.cut hop hstop).followed hus, ?_⟩
  rw [append_assoc]
  exact ht.change htarget hu up

/-! ### Lists of texts -/

def ListedText (text : String) (l : List Term) : Prop := ∃ ts, Scans text ts ∧ Listed ts l

theorem scans_empty : Scans "" [] := by
  intro rest _
  simp

theorem listedText_intercalate {comma : String} (hcomma : Cuts comma [.mark .comma])
    (hstop : opensWithStop comma) (h : List.Forall₂ WholeText texts l) :
    ListedText (comma.intercalate texts) l := by
  induction h with
  | nil => exact ⟨[], scans_empty, .inl ⟨rfl, rfl⟩⟩
  | @cons text t texts l htext hrest ih =>
    obtain ⟨ts, hts, ht⟩ := htext
    cases hrest with
    | nil =>
      rw [String.intercalate_singleton]
      exact ⟨ts, hts, .inr (.single ht)⟩
    | cons =>
      obtain ⟨us, hus, ⟨-, hnil⟩ | hitems⟩ := ih
      · cases hnil
      · rw [String.intercalate_cons_cons]
        refine ⟨_, (hts.cut hcomma hstop).followed hus, .inr ?_⟩
        rw [append_assoc]
        exact .cons ht hitems

theorem TightText.call (ha : TightText a t) (hb : ListedText b l) :
    TightText (a ++ "(" ++ b ++ ")") (.call t l) := by
  obtain ⟨ts, hts, ht⟩ := ha
  obtain ⟨us, hus, hu⟩ := hb
  have hopen : Cuts "(" [.mark (.opening .round)] := cuts_fixed "(" (by decide)
  have hclose : Cuts ")" [.mark (.closing .round)] := cuts_fixed ")" (by decide)
  refine ⟨_, (((hts.cut hopen (by decide)).followed hus).cut hclose (by decide)).scans, ?_⟩
  rw [append_assoc, append_assoc]
  exact ht.call hu

theorem ListedText.array (h : ListedText a l) : TightText ("[" ++ a ++ "]") (.array l) := by
  obtain ⟨ts, hts, h⟩ := h
  have hopen : Cuts "[" [.mark (.opening .square)] := cuts_fixed "[" (by decide)
  have hclose : Cuts "]" [.mark (.closing .square)] := cuts_fixed "]" (by decide)
  exact ⟨_, ((hopen.followed hts).cut hclose (by decide)).scans, h.array⟩

def entryText (key value : String) : String := "[" ++ key ++ "]: " ++ value

theorem scans_entryText {ks vs : List Lexeme} (hk : Scans a ks) (hv : Scans b vs) :
    Scans (entryText a b) (.mark (.opening .square) :: (ks ++ .mark (.closing .square) :: .mark .colon :: vs)) := by
  have hopen : Cuts "[" [.mark (.opening .square)] := cuts_fixed "[" (by decide)
  have hcolon : Cuts "]: " [.mark (.closing .square), .mark .colon] := cuts_fixed "]: " (by decide)
  have hscan := ((hopen.followed hk).cut hcolon (by decide)).followed hv
  rwa [append_assoc, append_assoc] at hscan

def IsEntryText (text : String) (e : Term × Term) : Prop :=
  ∃ key value, text = entryText key value ∧ WholeText key e.1 ∧ WholeText value e.2

theorem object_intercalate {l : List (Term × Term)} (h : List.Forall₂ IsEntryText texts l) :
    ∃ ts, Scans (", ".intercalate texts) ts ∧ ListedEntries ts l := by
  have hcomma : Cuts ", " [.mark .comma] := cuts_fixed ", " (by decide)
  induction h with
  | nil => exact ⟨[], scans_empty, .inl ⟨rfl, rfl⟩⟩
  | @cons text e texts l htext hrest ih =>
    obtain ⟨key, value, rfl, ⟨ks, hks, hk⟩, ⟨vs, hvs, hv⟩⟩ := htext
    have hentry := scans_entryText hks hvs
    cases hrest with
    | nil =>
      rw [String.intercalate_singleton]
      exact ⟨_, hentry, .inr (.single hk hv)⟩
    | cons =>
      obtain ⟨us, hus, ⟨-, hnil⟩ | hitems⟩ := ih
      · cases hnil
      · rw [String.intercalate_cons_cons]
        refine ⟨_, (hentry.cut hcomma (by decide)).followed hus, .inr ?_⟩
        simp only [List.cons_append, append_assoc, List.nil_append]
        exact .cons hk hv hitems

theorem tightText_object {l : List (Term × Term)} (h : List.Forall₂ IsEntryText texts l) :
    TightText ("\x7b" ++ commaList texts ++ "\x7d") (.object l) := by
  obtain ⟨ts, hts, h⟩ := object_intercalate h
  have hopen : Cuts "\x7b" [.mark (.opening .curly)] := cuts_fixed "\x7b" (by decide)
  have hclose : Cuts "\x7d" [.mark (.closing .curly)] := cuts_fixed "\x7d" (by decide)
  exact ⟨_, ((hopen.followed hts).cut hclose (by decide)).scans, h.object⟩

/-! ### Names and literals -/

def WordText (text : String) (t : Term) : Prop :=
  ∃ ts w, ScanState.between.run text.toList = some (ts, .inWord w) ∧ Tight (ts ++ [.word w]) t

theorem WordText.tight (h : WordText a t) : TightText a t := by
  obtain ⟨ts, w, hrun, h⟩ := h
  exact ⟨_, scans_of_run_word hrun, h⟩

theorem WordText.crement (hmark : Cuts mark [.mark (.crement up)])
    (hhead : mark.toList.head?.any (!isIdentifierChar ·)) (h : WordText a t) (htarget : t.isTarget) :
    WholeText (a ++ mark) (.crement t up) := by
  obtain ⟨ts, w, hrun, h⟩ := h
  exact ⟨_, (cuts_of_run_word hrun hmark hhead).scans, h.crement htarget up⟩

theorem wordText_word {text : String} (h : IsWord text.toList) (htypeof : text.toList ≠ "typeof".toList)
    (hreserved : reservedWords.contains text.toList = false) : WordText text (.word text.toList) :=
  ⟨[], _, run_word h, tight_word htypeof hreserved⟩

theorem isWord_nameText (hletter : StartsWithLetter name)
    (hword : ∀ c ∈ name.toList, isIdentifierChar c) : IsWord (nameText table id name).toList := by
  rw [StartsWithLetter] at hletter
  rw [toList_nameText]
  constructor
  · cases hcs : name.toList with
    | nil =>
      rw [hcs] at hletter
      cases hletter
    | cons c cs =>
      rw [hcs] at hletter
      refine ⟨c, rfl, ?_⟩
      rw [← Bool.not_eq_true]
      intro hdigit
      have hnot := isLetter_eq_false_of_isDigit hdigit
      rw [show isLetter c = true from hletter] at hnot
      cases hnot
  · rw [List.forall_mem_append, List.forall_mem_cons]
    exact ⟨hword, by decide, fun c hc => isIdentifierChar_of_isDigit (isDigit_of_mem_toDigits hc)⟩

theorem wordText_numbered (hletter : StartsWithLetter name)
    (hword : ∀ c ∈ name.toList, isIdentifierChar c) :
    WordText (nameText table id name) (.word (nameText table id name).toList) := by
  have hsuffix := suffix?_nameText table id name
  apply wordText_word (isWord_nameText hletter hword)
  · intro htypeof
    rw [htypeof, show suffix? "typeof".toList = none from by decide] at hsuffix
    cases hsuffix
  · have hnone : ∀ w ∈ reservedWords, suffix? w = none := by decide
    rw [← Bool.not_eq_true, List.contains_iff_mem]
    intro hmem
    rw [hnone _ hmem] at hsuffix
    cases hsuffix

theorem wordText_name (h : IsName name) :
    WordText (nameText table id name) (.word (nameText table id name).toList) :=
  wordText_numbered h.letter h.word

theorem wordText_field {object name : String}
    (hrun : ScanState.between.run (object ++ "." ++ name).toList =
      some ([.word object.toList, .mark .dot], .inWord name.toList))
    (htypeof : object.toList ≠ "typeof".toList)
    (hreserved : reservedWords.contains object.toList = false) :
    WordText (object ++ "." ++ name) (.field (.word object.toList) name.toList) :=
  ⟨_, _, hrun, (tight_word htypeof hreserved).field name.toList⟩

theorem isDigit_of_numeral? (h : numeral? letters = some n) : letters.head?.any isDigit := by
  cases letters with
  | nil => cases h
  | cons c cs =>
    by_contra hc
    have hdigit : isDigit c = false := by simpa using hc
    have htake : (c :: cs).takeWhile isDigit = [] := by simp [hdigit]
    rw [numeral?, htake] at h
    cases h

theorem tightText_number (h : numeral? letters = some n) :
    TightText (String.ofList letters) (.number letters) := by
  have hscan := @scans_number n (String.ofList letters) (by rwa [toList_ofList])
  rw [toList_ofList] at hscan
  exact ⟨_, hscan, tight_number letters⟩

def Term.negatedIf (negative : Bool) (t : Term) : Term := if negative then .signed .minus t else t

theorem looseText_number (h : numeral? letters = some n) (negative : Bool) :
    LooseText (String.ofList (if negative then '-' :: letters else letters))
      (.negatedIf negative (.number letters)) := by
  cases negative with
  | false => exact (tightText_number h).loose
  | true =>
    obtain ⟨ts, hts, ht⟩ := tightText_number h
    have hminus := hts.minus (by rw [toList_ofList]; exact isDigit_of_numeral? h)
    have htext : "-" ++ String.ofList letters = String.ofList ('-' :: letters) := by
      rw [← String.toList_inj]
      simp
    rw [htext] at hminus
    exact ⟨_, hminus, ht.loose.signed .minus⟩

theorem ofList_intText (n : Int) :
    s!"{n}n" = String.ofList (if n < 0 then '-' :: (Nat.toDigits 10 n.natAbs ++ ['n'])
      else Nat.toDigits 10 n.natAbs ++ ['n']) := by
  rw [← String.toList_inj, toList_ofList]
  change (toString n ++ "n").toList = _
  cases n with
  | ofNat n =>
    have hpos : ¬ Int.ofNat n < 0 := Int.not_lt.mpr (Int.natCast_nonneg n)
    rw [if_neg hpos, toList_append]
    exact congrArg (· ++ ['n']) (toList_toString n)
  | negSucc n =>
    rw [if_pos (Int.negSucc_lt_zero n), toList_append]
    change ("-" ++ toString (n + 1)).toList ++ ['n'] = _
    rw [toList_append, toList_toString]
    rfl

theorem wholeText_index (k : Nat) : WholeText (toString (k : Int)) (.number (Nat.toDigits 10 k)) := by
  have htext : toString (k : Int) = String.ofList (Nat.toDigits 10 k) := Nat.toString_eq_ofList_toDigits
  rw [htext]
  exact (tightText_number (numeral?_natural k)).loose.whole

theorem tightText_string (value : String) :
    TightText (jsonString .plain value) (.string (value.toList.flatMap (jsonChar .plain))) :=
  ⟨_, (cuts_string value).scans, tight_string _⟩

theorem tightText_bool (value : Bool) :
    TightText (if value then "true" else "false") (.word (if value then "true" else "false").toList) := by
  cases value with
  | true | false => exact (wordText_word (isWord_of_all (by decide)) (by decide) (by decide)).tight

/-! ### Signs -/

def opensWithSign (text : String) : Bool := text.toList.head?.any fun c => c == '-' || c == '!'

theorem startsWith_sign (text : String) : (text.startsWith "-" || text.startsWith "!") = opensWithSign text := by
  have hiff : ∀ c : Char, [c] <+: text.toList ↔ text.toList.head? = some c := by
    intro c
    cases text.toList with
    | nil => simp
    | cons => simp [eq_comm]
  rw [Bool.eq_iff_iff, Bool.or_eq_true, String.startsWith_string_iff, String.startsWith_string_iff]
  change ['-'] <+: text.toList ∨ ['!'] <+: text.toList ↔ _
  rw [hiff, hiff, opensWithSign]
  cases text.toList with
  | nil | cons => simp

theorem opensWithSign_append (ha : opensWithSign a = false) (hb : opensWithSign b = false) :
    opensWithSign (a ++ b) = false := by
  rw [opensWithSign] at *
  rw [toList_append]
  cases hcs : a.toList with
  | nil =>
    rw [List.nil_append]
    exact hb
  | cons =>
    rw [hcs] at ha
    exact ha

theorem opensWithSign_of_head {p : Char → Bool} (hminus : p '-' = false) (hnot : p '!' = false)
    (h : a.toList.head?.any p) : opensWithSign a = false := by
  rw [opensWithSign]
  cases hcs : a.toList with
  | nil => rfl
  | cons c cs =>
    rw [hcs] at h
    have hc : p c = true := h
    rw [← Bool.not_eq_true]
    intro hsign
    have hcases : c = '-' ∨ c = '!' := by simpa using hsign
    rcases hcases with rfl | rfl
    · rw [hminus] at hc
      cases hc
    · rw [hnot] at hc
      cases hc

theorem opensWithSign_fixed (h : (a.toList.head?.isSome && !opensWithSign a)) (b : String) :
    opensWithSign (a ++ b) = false := by
  rw [opensWithSign] at *
  rw [toList_append]
  cases hcs : a.toList with
  | nil =>
    rw [hcs] at h
    cases h
  | cons =>
    rw [hcs] at h
    simpa using h

theorem opensWithSign_name (h : IsName name) : opensWithSign (nameText table id name) = false := by
  have hletter := h.letter
  refine opensWithSign_of_head (by decide) (by decide) (p := isLetter) ?_
  rw [toList_nameText]
  rw [StartsWithLetter] at hletter
  cases hcs : name.toList with
  | nil =>
    rw [hcs] at hletter
    cases hletter
  | cons =>
    rw [hcs] at hletter
    exact hletter

theorem opensWithSign_number (h : numeral? letters = some n) (negative : Bool) :
    opensWithSign (String.ofList (if negative then '-' :: letters else letters)) = negative := by
  cases negative with
  | true =>
    rw [opensWithSign, toList_ofList]
    rfl
  | false =>
    refine opensWithSign_of_head (p := isDigit) (by decide) (by decide) ?_
    rw [toList_ofList]
    exact isDigit_of_numeral? h

end JavaScript

end LemonScript
