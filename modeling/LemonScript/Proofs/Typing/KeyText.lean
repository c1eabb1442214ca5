import LemonScript.Proofs.Number.FloatText
import LemonScript.Typing.Check
/-!
# The prints of keys

A key is printed as a letter for its kind and the text of its value. A quoted text is read back character by
character, and different numbers have different texts. So keys with the same print are literals of one value
or the same variable, and keys are distinct if no two of them are the same.
-/

namespace LemonScript

open List (flatMap_cons)

/-! ### Quoted texts -/

/-- The characters that have a short form in a quoted text. -/
def shortForms : List (Char × Char) :=
  [('"', '"'), ('\\', '\\'), ('a', '\x07'), ('b', '\x08'), ('f', '\x0c'), ('n', '\n'), ('r', '\r'), ('t', '\t'),
    ('v', '\x0b')]

/-- Reads what a quoted text shows for one character; its end shows none. -/
def unquote? : List Char → Option (Char × List Char)
  | '\\' :: 'x' :: rest => some (Char.ofNat (hexNumber (rest.take 2)), rest.drop 2)
  | '\\' :: 'u' :: rest => some (Char.ofNat (hexNumber (rest.take 4)), rest.drop 4)
  | '\\' :: 'U' :: rest => some (Char.ofNat (hexNumber (rest.take 8)), rest.drop 8)
  | '\\' :: c :: rest => (shortForms.lookup c).map (·, rest)
  | c :: rest => if c == '"' then none else some (c, rest)
  | [] => none

theorem unquote?_hexText {width : Nat} (c : Char) (rest : List Char) (hwidth : 0 < width) (h : c.toNat < 16 ^ width) :
    (Char.ofNat (hexNumber ((hexText width c.toNat ++ rest).take width)), (hexText width c.toNat ++ rest).drop width) =
      (c, rest) := by
  have hlength := length_hexText hwidth h
  rw [List.take_append_of_le_length hlength.ge, List.drop_append_of_le_length hlength.ge]
  rw [List.take_of_length_le hlength.le, List.drop_of_length_le hlength.le, hexNumber_hexText, Char.ofNat_toNat]
  rfl

theorem unquote?_plain {c : Char} (hquote : c ≠ '"') (hslash : c ≠ '\\') (rest : List Char) :
    unquote? (c :: rest) = some (c, rest) := by
  simp [unquote?, hquote, hslash]

theorem unquote?_quotedChar (c : Char) (rest : List Char) : unquote? (quotedChar c ++ rest) = some (c, rest) := by
  have hcode {n : Nat} (h : c.toNat = n) : c = Char.ofNat n := by rw [← h, Char.ofNat_toNat]
  unfold quotedChar
  split
  · next h =>
    rw [eq_of_beq h]
    rfl
  split
  · next h =>
    rw [eq_of_beq h]
    rfl
  next hquote hslash =>
  split
  · exact unquote?_plain (by simpa using hquote) (by simpa using hslash) rest
  split
  case h_8 =>
    split
    · next h =>
      have hsmall : c.toNat < 16 ^ 2 := by
        simp only [Bool.or_eq_true, decide_eq_true_eq, beq_iff_eq] at h
        omega
      exact congrArg some (unquote?_hexText c rest (by decide) hsmall)
    split
    · next h => exact congrArg some (unquote?_hexText c rest (by decide) h)
    · exact congrArg some (unquote?_hexText c rest (by decide) c.val.toNat_lt)
  all_goals
    next h =>
      rw [hcode h]
      rfl

theorem quotedChars_inj {cs cs' : List Char} (h : cs.flatMap quotedChar ++ ['"'] = cs'.flatMap quotedChar ++ ['"']) :
    cs = cs' := by
  have hread := congrArg unquote? h
  induction cs generalizing cs' with
  | nil =>
    cases cs' with
    | nil => rfl
    | cons =>
      rw [flatMap_cons, List.append_assoc, unquote?_quotedChar] at hread
      cases hread
  | cons c cs ih =>
    rw [flatMap_cons, List.append_assoc, unquote?_quotedChar] at hread
    cases cs' with
    | nil => cases hread
    | cons =>
      rw [flatMap_cons, List.append_assoc, unquote?_quotedChar, Option.some.injEq, Prod.mk.injEq] at hread
      obtain ⟨rfl, hrest⟩ := hread
      rw [ih hrest (congrArg unquote? hrest)]

theorem quoted_inj {text text' : String} (h : quoted text = quoted text') : text = text' := by
  have hchars := String.ofList_injective h
  exact String.toList_injective (quotedChars_inj (List.cons.inj hchars).2)

namespace Analysis

/-! ### Keys that are the same -/

/-- Two keys are literals of one value, or the same variable. -/
inductive SameKey : Node → Node → Prop
  | int (value : Int) : SameKey (.intLit value) (.intLit value)
  | float (value : Float) : SameKey (.floatLit value) (.floatLit value)
  | string (value : String) : SameKey (.stringLit value) (.stringLit value)
  | bool (name name' : String) (value : Bool) (type type' : Ty) :
    SameKey (.boolLit name value type) (.boolLit name' value type')
  | var {v v' : Variable} (h : v'.id = v.id) : SameKey (.var v) (.var v')

/-- The print of a key tells its kind and its value. -/
theorem sameKey_of_print {k k' : Node} {p : String} (h : keyPrint? k = some p) (h' : keyPrint? k' = some p) :
    SameKey k k' := by
  have hprint := h.trans h'.symm
  have hsame {tag text text' : String} (h : some (tag ++ text) = some (tag ++ text')) : text = text' :=
    (String.append_right_inj tag).mp (Option.some.inj h)
  have hchars := congrArg (Option.map String.toList) hprint
  cases k with
  | intLit a =>
    cases k' with
    | intLit b =>
      obtain rfl : a = b := Int.repr_injective (hsame hprint)
      exact .int a
    | _ => simp [keyPrint?] at hchars
  | floatLit x =>
    cases k' with
    | floatLit y =>
      obtain rfl : x = y := floatText_inj (hsame hprint)
      exact .float x
    | _ => simp [keyPrint?] at hchars
  | stringLit a =>
    cases k' with
    | stringLit b =>
      obtain rfl : a = b := quoted_inj (hsame hprint)
      exact .string a
    | _ => simp [keyPrint?] at hchars
  | boolLit name a type =>
    cases k' with
    | boolLit name' b type' =>
      have hbools : ∀ a b : Bool, toString a = toString b → a = b := by decide
      obtain rfl : a = b := hbools a b (hsame hprint)
      exact .bool name name' a type type'
    | _ => simp [keyPrint?] at hchars
  | var v =>
    cases k' with
    | var v' => exact .var (Int.repr_injective (hsame hprint.symm))
    | _ => simp [keyPrint?] at hchars
  | _ => cases h

theorem sameKey_iff {k k' : Node} : SameKey k k' ↔ ∃ p, keyPrint? k = some p ∧ keyPrint? k' = some p := by
  refine ⟨fun h => ?_, fun ⟨p, hp, hp'⟩ => sameKey_of_print hp hp'⟩
  cases h with
  | var h => exact ⟨_, rfl, by rw [keyPrint?, h]⟩
  | _ => exact ⟨_, rfl, rfl⟩

theorem distinct_iff {prints : List String} : distinct prints ↔ prints.Nodup := by
  induction prints with
  | nil => simp [distinct]
  | cons p ps ih => simp [distinct, ih]

theorem distinct_keys_iff {ns : List Node} :
    distinct (ns.filterMap keyPrint?) ↔ ns.Pairwise fun k k' => ¬ SameKey k k' := by
  rw [distinct_iff, List.Nodup, List.pairwise_filterMap]
  refine List.Pairwise.iff fun k k' => ?_
  rw [sameKey_iff]
  constructor
  · rintro h ⟨p, hp, hp'⟩
    exact h p hp p hp' rfl
  · rintro h p hp _ hp' rfl
    exact h ⟨p, hp, hp'⟩

end Analysis

end LemonScript
