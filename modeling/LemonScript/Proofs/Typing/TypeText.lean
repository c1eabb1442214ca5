import Mathlib
import LemonScript.Syntax.Ty
/-!
# Printed types

A printed type shows where it ends: whatever stands behind it, the type can be told from the text. So
two types with the same text are the same type, and a type that is kept under its text is never found
in the place of another one.

This holds of types that are complete. A function type without a result is printed like one that gives
nothing back, and a name of a type may be spelled like anything.
-/

namespace LemonScript

namespace Ty

variable {t t' : Ty} {r r' : List Char}

mutual

/-- Whether no part of a type is missing or only a name. -/
def isResolved : Ty → Bool
  | nothing => false
  | base _ => true
  | array member => member.isResolved
  | map key value => key.isResolved && value.isResolved
  | func params result => areResolved params && result.isResolved
  | named _ => false

def areResolved : List Ty → Bool
  | [] => true
  | t :: ts => t.isResolved && areResolved ts

end

-- the equations of the printer are put up once, before the proofs that share them
attribute [local simp] text texts isResolved areResolved

theorem areResolved_iff {ts : List Ty} : areResolved ts ↔ ∀ t ∈ ts, t.isResolved := by
  induction ts with
  | nil => simp [areResolved]
  | cons t ts ih => simp [areResolved, ih]

/-! ### The characters of a printed type -/

def furtherChars : List Ty → List Char
  | [] => []
  | t :: ts => ',' :: (t.text.toList ++ furtherChars ts)

theorem toList_text_array (member : Ty) :
    (array member).text.toList = '[' :: (member.text.toList ++ [']']) := by
  simp [text]

theorem toList_text_map (key value : Ty) :
    (map key value).text.toList = '<' :: (key.text.toList ++ ',' :: (value.text.toList ++ ['>'])) := by
  simp [text]

theorem toList_intercalate_texts (t : Ty) (ts : List Ty) :
    (",".intercalate (texts (t :: ts))).toList = t.text.toList ++ furtherChars ts := by
  induction ts generalizing t with
  | nil => simp [texts, furtherChars]
  | cons t' ts ih => simp [texts, furtherChars, ← ih]

theorem toList_text_func (params : List Ty) {result : Ty} (h : result.isResolved) :
    (func params result).text.toList =
      '(' :: ((",".intercalate (texts params)).toList ++ ')' :: '-' :: '>' :: result.text.toList) := by
  cases result with
  | nothing => simp [isResolved] at h
  | _ => simp [text]

def opening : Ty → Char
  | base b => b.text.toList.headD ' '
  | array _ => '['
  | map _ _ => '<'
  | func _ _ => '('
  | nothing => '%'
  | named name => name.toList.headD ' '

theorem head?_text (h : t.isResolved) : t.text.toList.head? = some t.opening := by
  cases t with
  | nothing | named => simp [isResolved] at h
  | base b => cases b <;> rfl
  | array => rw [toList_text_array]; rfl
  | map => rw [toList_text_map]; rfl
  | func params =>
    simp only [isResolved, Bool.and_eq_true] at h
    rw [toList_text_func params h.2]
    rfl

theorem opening_of_append (h : t.isResolved) {c : Char} (heq : t.text.toList ++ r = c :: r') :
    t.opening = c := by
  have hhead := congrArg List.head? heq
  rw [List.head?_append, head?_text h] at hhead
  simpa using hhead

theorem opening_eq (ht : t.isResolved) (ht' : t'.isResolved)
    (h : t.text.toList ++ r = t'.text.toList ++ r') : t.opening = t'.opening := by
  have hhead := congrArg List.head? h
  rw [List.head?_append, List.head?_append, head?_text ht, head?_text ht'] at hhead
  simpa using hhead

theorem opening_ne_close (t : Ty) (h : t.isResolved) : t.opening ≠ ')' ∧ t.opening ≠ ']' := by
  cases t with
  | nothing | named => simp [isResolved] at h
  | base b => cases b <;> decide
  | _ => simp [opening]

/-! ### Telling a type from its text -/

theorem eq_of_text_begins : ∀ {b b' : BaseTy}, b.text.toList <+: b'.text.toList → b = b' := by
  intro b b'
  cases b <;> cases b' <;> decide

theorem base_append_inj {b b' : BaseTy} (h : b.text.toList ++ r = b'.text.toList ++ r') :
    b = b' ∧ r = r' := by
  have hb : b = b' := by
    rcases List.prefix_or_prefix_of_prefix ⟨r, h⟩ (List.prefix_append _ _) with hp | hp
    · exact eq_of_text_begins hp
    · exact (eq_of_text_begins hp).symm
  subst hb
  exact ⟨rfl, List.append_cancel_left h⟩

theorem base_opening (b : BaseTy) : (base b).opening ≠ '<' ∧ (base b).opening ≠ '(' := by
  cases b <;> decide

theorem base_append_ne_array (b : BaseTy) {member : Ty} (h : member.isResolved)
    (r r' : List Char) : b.text.toList ++ r ≠ (array member).text.toList ++ r' := by
  intro heq
  rw [toList_text_array] at heq
  have hopening : (base b).opening = '[' := opening_of_append (t := base b) rfl heq
  -- only `[]` begins like an array type, and it goes on with the bracket that closes
  have hb : b = .emptyArray := by
    revert hopening
    cases b <;> decide
  subst hb
  have htail : member.text.toList ++ ([']'] ++ r') = ']' :: r := by
    rw [← List.append_assoc]
    exact (List.cons.inj heq).2.symm
  exact (opening_ne_close member h).2 (opening_of_append h htail)

mutual

/-- Two types with anything behind them are printed alike only if they are the same. -/
theorem text_append_inj : ∀ {t t' : Ty} {r r' : List Char}, t.isResolved →
    t'.isResolved → t.text.toList ++ r = t'.text.toList ++ r' → t = t' ∧ r = r'
  | .base b, t', r, r', ht, ht', h => by
    have hopening := opening_eq ht ht' h
    cases t' with
    | base b' =>
      obtain ⟨rfl, rfl⟩ := base_append_inj h
      exact ⟨rfl, rfl⟩
    | array =>
      rw [isResolved] at ht'
      exact absurd h (base_append_ne_array b ht' r r')
    | map => exact absurd hopening (base_opening b).1
    | func => exact absurd hopening (base_opening b).2
    | nothing | named _ => simp [isResolved] at ht'
  | .array member, t', r, r', ht, ht', h => by
    have hopening := opening_eq ht ht' h
    rw [isResolved] at ht
    cases t' with
    | base b' => exact absurd h.symm (base_append_ne_array b' ht r' r)
    | array =>
      simp only [toList_text_array, List.cons_append, List.append_assoc, List.nil_append,
        List.cons.injEq, true_and] at h
      rw [isResolved] at ht'
      obtain ⟨rfl, hr⟩ := text_append_inj ht ht' h
      exact ⟨rfl, (List.cons.inj hr).2⟩
    | map key' value' | func params' result' => exact absurd hopening (by simp [opening])
    | nothing | named _ => simp [isResolved] at ht'
  | .map key value, t', r, r', ht, ht', h => by
    have hopening := opening_eq ht ht' h
    cases t' with
    | base b' => exact absurd hopening.symm (base_opening b').1
    | map =>
      simp only [isResolved, Bool.and_eq_true] at ht ht'
      simp only [toList_text_map, List.cons_append, List.append_assoc, List.nil_append,
        List.cons.injEq, true_and] at h
      obtain ⟨rfl, hvalue⟩ := text_append_inj ht.1 ht'.1 h
      obtain ⟨rfl, hr⟩ := text_append_inj ht.2 ht'.2 (List.cons.inj hvalue).2
      exact ⟨rfl, (List.cons.inj hr).2⟩
    | array member' | func params' result' => exact absurd hopening (by simp [opening])
    | nothing | named _ => simp [isResolved] at ht'
  | .func params result, t', r, r', ht, ht', h => by
    have hopening := opening_eq ht ht' h
    cases t' with
    | base b' => exact absurd hopening.symm (base_opening b').2
    | func params' =>
      simp only [isResolved, Bool.and_eq_true] at ht ht'
      simp only [toList_text_func params ht.2, toList_text_func params' ht'.2, List.cons_append,
        List.append_assoc, List.cons.injEq, true_and] at h
      obtain ⟨rfl, hresult⟩ := params_append_inj ht.1 ht'.1 h
      simp only [List.cons.injEq, true_and] at hresult
      obtain ⟨rfl, hr⟩ := text_append_inj ht.2 ht'.2 hresult
      exact ⟨rfl, hr⟩
    | array member' | map key' value' => exact absurd hopening (by simp [opening])
    | nothing | named _ => simp [isResolved] at ht'

theorem params_append_inj : ∀ {ts ts' : List Ty} {r r' : List Char}, areResolved ts →
    areResolved ts' → (",".intercalate (texts ts)).toList ++ ')' :: r =
      (",".intercalate (texts ts')).toList ++ ')' :: r' → ts = ts' ∧ r = r'
  | [], [], r, r', _, _, h => ⟨rfl, (List.cons.inj h).2⟩
  | [], t' :: ts', r, r', _, hts', h => by
    simp only [areResolved, Bool.and_eq_true] at hts'
    rw [toList_intercalate_texts, List.append_assoc] at h
    exact absurd (opening_of_append hts'.1 h.symm) (opening_ne_close t' hts'.1).1
  | t :: ts, [], r, r', hts, _, h => by
    simp only [areResolved, Bool.and_eq_true] at hts
    rw [toList_intercalate_texts, List.append_assoc] at h
    exact absurd (opening_of_append hts.1 h) (opening_ne_close t hts.1).1
  | t :: ts, t' :: ts', r, r', hts, hts', h => by
    simp only [areResolved, Bool.and_eq_true] at hts hts'
    simp only [toList_intercalate_texts, List.append_assoc] at h
    obtain ⟨rfl, hmore⟩ := text_append_inj hts.1 hts'.1 h
    obtain ⟨rfl, hr⟩ := further_append_inj hts.2 hts'.2 hmore
    exact ⟨rfl, hr⟩

theorem further_append_inj : ∀ {ts ts' : List Ty} {r r' : List Char}, areResolved ts →
    areResolved ts' → furtherChars ts ++ ')' :: r = furtherChars ts' ++ ')' :: r' →
      ts = ts' ∧ r = r'
  | [], [], r, r', _, _, h => ⟨rfl, (List.cons.inj h).2⟩
  | [], t' :: ts', r, r', _, _, h => absurd (List.cons.inj h).1 (by decide)
  | t :: ts, [], r, r', _, _, h => absurd (List.cons.inj h).1 (by decide)
  | t :: ts, t' :: ts', r, r', hts, hts', h => by
    simp only [areResolved, Bool.and_eq_true] at hts hts'
    simp only [furtherChars, List.cons_append, List.append_assoc, List.cons.injEq, true_and] at h
    obtain ⟨rfl, hmore⟩ := text_append_inj hts.1 hts'.1 h
    obtain ⟨rfl, hr⟩ := further_append_inj hts.2 hts'.2 hmore
    exact ⟨rfl, hr⟩

end

/-- Types with the same text are the same. -/
theorem eq_of_text_eq (ht : t.isResolved) (ht' : t'.isResolved) (h : t.text = t'.text) : t = t' :=
  (text_append_inj ht ht' (congrArg (·.toList ++ []) h)).1

end Ty

end LemonScript
