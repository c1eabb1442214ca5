import LemonScript.Proofs.Text.Digits
import LemonScript.TypeInfo.Json
/-!
# Type information survives JSON

A string or an object that is written as JSON is read back, whatever follows it. So a description is read
back too, with its functions in ascending order as they were.
-/

namespace LemonScript

open List (append_assoc cons_append length_cons map_cons)

namespace JsonValue

/-! ### Strings -/

theorem fourHex?_append {digits : List Char} (hlength : digits.length = 4)
    (hdigits : ∀ d ∈ digits, isHexDigit d = true) (rest : List Char) :
    fourHex? (digits ++ rest) = some (hexNumber digits) := by
  have htake : (digits ++ rest).take 4 = digits := by rw [← hlength, List.take_left]
  unfold fourHex?
  simp only [htake]
  rw [if_pos]
  simp [hlength, List.all_eq_true.2 hdigits]

theorem unicodeEscape?_hexText {n : Nat} (hn : n < 0xD800) (rest : List Char) :
    unicodeEscape? (hexText 4 n ++ rest) = some (Char.ofNat n, 5) := by
  have hfour : fourHex? (hexText 4 n ++ rest) = some n := by
    rw [fourHex?_append (length_hexText (by decide) (by omega)) fun d hd => isHexDigit_of_mem_hexText hd,
      hexNumber_hexText]
  have hhigh : isHighSurrogate n = false := by simp [isHighSurrogate]; omega
  have hvalid : n.isValidChar := .inl hn
  unfold unicodeEscape?
  simp only [hfour, hhigh, Bool.false_and, if_pos hvalid]
  split <;> rfl

theorem stringBody?_length (cs rest : List Char) :
    stringBody? cs.length (cs ++ rest) = stringBody? 0 rest := by
  induction cs with
  | nil => rfl
  | cons c cs ih => exact ih

theorem stringBody?_escape {cs : List Char} {c : Char} {n : Nat} (h : escape? cs = some (c, n)) :
    stringBody? 0 ('\\' :: cs) = (stringBody? n cs).map fun (value, rest) => (c :: value, rest) := by
  rw [stringBody?, if_neg (by decide), if_pos (by decide), h]

theorem stringBody?_jsonChar (safety : JsonSafety) (c : Char) (rest : List Char) :
    stringBody? 0 (jsonChar safety c ++ rest) =
      (stringBody? 0 rest).map fun (value, rest) => (c :: value, rest) := by
  unfold jsonChar
  split
  iterate 7 rfl
  · next hquote hslash _ _ _ _ _ =>
    dsimp only
    split
    · next hescaped =>
      have hn : c.toNat < 0xD800 := by
        simp only [Bool.or_eq_true, decide_eq_true_eq, beq_iff_eq, Bool.and_eq_true] at hescaped
        rcases hescaped with ((h | h) | h) | ⟨-, (h | h) | h⟩
        · omega
        · omega
        · omega
        all_goals
          subst h
          decide
      have hescape : escape? ('u' :: (hexText 4 c.toNat ++ rest)) = some (c, 5) := by
        rw [escape?, unicodeEscape?_hexText hn, Char.ofNat_toNat]
      have hlength : 5 = ('u' :: hexText 4 c.toNat).length := by
        rw [length_cons, length_hexText (by decide) (by omega)]
      have hskip := stringBody?_length ('u' :: hexText 4 c.toNat) rest
      rw [← hlength] at hskip
      rw [cons_append, cons_append, stringBody?_escape hescape]
      exact congrArg _ hskip
    · next hplain =>
      have hvisible : ¬ c.toNat < 0x20 := by
        intro hlow
        simp [hlow] at hplain
      simp only [cons_append, List.nil_append, stringBody?, beq_iff_eq, if_neg hquote, if_neg hslash,
        if_neg hvisible]

theorem stringBody?_jsonString (safety : JsonSafety) (text rest : List Char) :
    stringBody? 0 (text.flatMap (jsonChar safety) ++ '"' :: rest) = some (text, rest) := by
  induction text with
  | nil => rfl
  | cons c cs ih => rw [List.flatMap_cons, append_assoc, stringBody?_jsonChar, ih, Option.map_some]

/-! ### Values -/

theorem skipBlanks_cons {c : Char} (h : isJsonBlank c = false) (cs : List Char) :
    skipBlanks (c :: cs) = c :: cs := by
  simp [skipBlanks, h]

/-- The text is read as the value, whatever follows, by as many steps as it has characters. -/
def Reads (depth : Nat) (text : String) (v : JsonValue) : Prop :=
  ∀ fuel, text.length ≤ fuel → ∀ rest, value? fuel depth (text.toList ++ rest) = some (v, rest)

theorem toList_jsonString (safety : JsonSafety) (text : String) :
    (jsonString safety text).toList = '"' :: (text.toList.flatMap (jsonChar safety) ++ ['"']) :=
  String.toList_ofList

theorem reads_jsonString (depth : Nat) (safety : JsonSafety) (text : String) :
    Reads depth (jsonString safety text) (.string text) := by
  intro fuel hfuel rest
  rw [← String.length_toList, toList_jsonString, length_cons] at hfuel
  obtain ⟨fuel, rfl⟩ : ∃ n, fuel = n + 1 := ⟨fuel - 1, by omega⟩
  rw [toList_jsonString, cons_append, append_assoc, List.singleton_append]
  simp only [value?, skipBlanks_cons (c := '"') (by decide), stringBody?_jsonString, Option.map_some, String.ofList_toList]

/-! ### Objects -/

open TypeInfo

structure Member where
  name : String
  text : String
  value : JsonValue

namespace Member

def written (m : Member) : String := jsonMember m.name m.text

def read (m : Member) : String × JsonValue := (m.name, m.value)

end Member

variable {depth fuel : Nat} {m : Member}

theorem toList_written (m : Member) (rest : List Char) : m.written.toList ++ rest =
    '"' :: (m.name.toList.flatMap (jsonChar .markup) ++ '"' :: ':' :: (m.text.toList ++ rest)) := by
  simp [Member.written, jsonMember, toList_jsonString]

theorem length_written (m : Member) : m.text.length + 3 ≤ m.written.length := by
  have hlength := congrArg List.length (toList_written m [])
  simp only [List.append_nil, String.length_toList, length_cons, List.length_append] at hlength
  omega

theorem members?_last (hm : Reads depth m.text m.value) (hfuel : m.text.length ≤ fuel) (rest : List Char) :
    members? (fuel + 1) depth (m.written.toList ++ '\x7d' :: rest) = some ([m.read], rest) := by
  rw [toList_written]
  simp only [members?, skipBlanks_cons (c := '"') (by decide), stringBody?_jsonString,
    skipBlanks_cons (c := ':') (by decide), hm fuel hfuel, skipBlanks_cons (c := '\x7d') (by decide),
    String.ofList_toList]
  rfl

theorem members?_more (hm : Reads depth m.text m.value) (hfuel : m.text.length ≤ fuel) (rest : List Char) :
    members? (fuel + 1) depth (m.written.toList ++ ',' :: rest) =
      (members? fuel depth rest).map fun (ms, rest) => (m.read :: ms, rest) := by
  rw [toList_written]
  simp only [members?, skipBlanks_cons (c := '"') (by decide), stringBody?_jsonString,
    skipBlanks_cons (c := ':') (by decide), hm fuel hfuel, skipBlanks_cons (c := ',') (by decide),
    String.ofList_toList]
  rfl

theorem members?_written {ms : List Member} (hms : ∀ m' ∈ m :: ms, Reads depth m'.text m'.value)
    (hfuel : (",".intercalate ((m :: ms).map Member.written)).length ≤ fuel) (rest : List Char) :
    members? fuel depth ((",".intercalate ((m :: ms).map Member.written)).toList ++ '\x7d' :: rest) =
      some ((m :: ms).map Member.read, rest) := by
  induction ms generalizing m fuel with
  | nil =>
    have hlength := length_written m
    simp only [map_cons, List.map_nil, String.intercalate_singleton] at hfuel ⊢
    obtain ⟨fuel, rfl⟩ : ∃ n, fuel = n + 1 := ⟨fuel - 1, by omega⟩
    exact members?_last (hms m (by simp)) (by omega) rest
  | cons next ms ih =>
    have hlength := length_written m
    simp only [map_cons, String.intercalate_cons_cons, String.length_append] at hfuel ⊢
    obtain ⟨fuel, rfl⟩ : ∃ n, fuel = n + 1 := ⟨fuel - 1, by omega⟩
    have hshort : (",".intercalate ((next :: ms).map Member.written)).length ≤ fuel := by
      rw [map_cons]
      omega
    have hnext := ih (List.forall_mem_cons.1 hms).2 hshort
    rw [String.toList_append, String.toList_append, append_assoc, append_assoc,
      show ",".toList = [','] from rfl, List.singleton_append,
      members?_more (hms m (by simp)) (by omega), ← map_cons, hnext]
    rfl

theorem reads_jsonObject (depth : Nat) (ms : List Member) (hms : ∀ m ∈ ms, Reads depth m.text m.value) :
    Reads (depth + 1) (jsonObject (ms.map Member.written)) (.object (ms.map Member.read)) := by
  intro fuel hfuel rest
  have hlist : (jsonObject (ms.map Member.written)).toList ++ rest =
      '\x7b' :: ((",".intercalate (ms.map Member.written)).toList ++ '\x7d' :: rest) := by
    simp [jsonObject]
  have hlength := congrArg List.length hlist
  simp only [List.length_append, length_cons, String.length_toList] at hlength
  obtain ⟨fuel, rfl⟩ : ∃ n, fuel = n + 1 := ⟨fuel - 1, by omega⟩
  rw [hlist]
  cases ms with
  | nil =>
    simp only [value?, skipBlanks_cons (c := '\x7b') (by decide), List.map_nil, String.intercalate_nil]
    rfl
  | cons m ms =>
    have hmembers := members?_written hms (show _ ≤ fuel by omega) rest
    -- the object is not empty, since its first member begins with a quote
    obtain ⟨cs, hcs⟩ : ∃ cs, (",".intercalate ((m :: ms).map Member.written)).toList ++ '\x7d' :: rest =
        '"' :: cs := by
      cases ms with
      | nil => exact ⟨_, toList_written m _⟩
      | cons =>
        rw [map_cons, map_cons, String.intercalate_cons_cons, String.toList_append,
          String.toList_append, append_assoc, append_assoc]
        exact ⟨_, toList_written m _⟩
    rw [hcs] at hmembers ⊢
    simp only [value?, skipBlanks_cons (c := '\x7b') (by decide), skipBlanks_cons (c := '"') (by decide),
      hmembers, Option.map_some]
    rfl

theorem parse?_of_reads {text : String} {v : JsonValue} (h : Reads maxDepth text v) :
    parse? text = some v := by
  have hvalue := h (2 * text.toList.length + 1) (by rw [String.length_toList]; omega) []
  rw [List.append_nil] at hvalue
  unfold parse?
  simp only [hvalue]
  rfl

end JsonValue

namespace TypeInfo

open JsonValue

/-! ### Lists of functions -/

def Ascending (functions : List (String × String)) : Prop :=
  functions.Pairwise fun f g => f.1 < g.1

variable {functions : List (String × String)}

theorem put_of_lt {name type : String} (h : ∀ f ∈ functions, f.1 < name) :
    put name type functions = functions ++ [(name, type)] := by
  induction functions with
  | nil => rfl
  | cons f fs ih =>
    obtain ⟨hfirst, hrest⟩ := List.forall_mem_cons.1 h
    obtain ⟨n, t⟩ := f
    have hne : ¬ (name == n) = true := by simpa using hfirst.ne'
    rw [put, if_neg hfirst.asymm, if_neg hne, ih hrest]
    rfl

theorem readFunctions_of_ascending {known : List (String × String)}
    (h : Ascending (known ++ functions)) :
    readFunctions known (functions.map fun f => (f.1, JsonValue.string f.2)) = some (known ++ functions) := by
  induction functions generalizing known with
  | nil => simp [readFunctions]
  | cons f fs ih =>
    have hlt : ∀ g ∈ known, g.1 < f.1 := fun g hg => (List.pairwise_append.1 h).2.2 g hg f (by simp)
    rw [map_cons, readFunctions, put_of_lt hlt, ih (by simpa using h)]
    simp

/-! ### Descriptions -/

def functionMember (f : String × String) : Member := ⟨f.1, jsonString .markup f.2, .string f.2⟩

def functionsMember (functions : List (String × String)) : Member where
  name := "functions"
  text := functionsJson (some functions)
  value := .object (functions.map fun f => (f.1, .string f.2))

theorem reads_functionsMember (depth : Nat) (functions : List (String × String)) :
    Reads (depth + 1) (functionsMember functions).text (functionsMember functions).value := by
  have hobject := reads_jsonObject depth (functions.map functionMember) (by
    intro m hm
    obtain ⟨f, -, rfl⟩ := List.mem_map.1 hm
    exact reads_jsonString depth .markup f.2)
  rw [List.map_map, List.map_map] at hobject
  exact hobject

theorem readMember_functions (package : String) (h : Ascending functions) :
    readMember ⟨package, none⟩ "functions" (functionsMember functions).value =
      some ⟨package, some functions⟩ := by
  have hread : readFunctions [] (functions.map fun f => (f.1, JsonValue.string f.2)) = some functions :=
    readFunctions_of_ascending h
  unfold readMember
  rw [if_neg (by decide), if_pos (by decide)]
  simp only [functionsMember, Option.getD_none, hread, Option.map_some]

theorem readMember_package (package : String) :
    readMember ⟨"", none⟩ "package" (.string package) = some ⟨package, none⟩ := by
  unfold readMember
  rw [if_pos (by decide)]

def descriptionMembers (package : String) (functions : List (String × String)) : List Member :=
  (if package = "" then [] else [⟨"package", jsonString .markup package, .string package⟩]) ++
    [functionsMember functions]

theorem toJson_eq (package : String) (functions : List (String × String)) :
    toJson ⟨package, some functions⟩ =
      jsonObject ((descriptionMembers package functions).map Member.written) := by
  unfold toJson descriptionMembers
  by_cases hpackage : package = ""
  · simp only [hpackage]
    rfl
  · simp only [beq_iff_eq, hpackage]
    rfl

theorem reads_descriptionMembers (depth : Nat) (package : String) (functions : List (String × String)) :
    ∀ m ∈ descriptionMembers package functions, Reads (depth + 1) m.text m.value := by
  have hfunctions := reads_functionsMember depth functions
  have hpackage := reads_jsonString (depth + 1) .markup package
  unfold descriptionMembers
  split_ifs
  · simpa using hfunctions
  · simpa using ⟨hpackage, hfunctions⟩

theorem readMembers_description (package : String) (h : Ascending functions) :
    readMembers ⟨"", none⟩ ((descriptionMembers package functions).map Member.read) =
      some ⟨package, some functions⟩ := by
  have hfunctions := readMember_functions package h
  unfold descriptionMembers
  split_ifs with hpackage
  · subst hpackage
    exact congrArg (Option.bind · _) hfunctions
  · calc readMembers ⟨"", none⟩ [("package", .string package), (functionsMember functions).read]
      _ = readMembers ⟨package, none⟩ [(functionsMember functions).read] :=
        congrArg (Option.bind · _) (readMember_package package)
      _ = some ⟨package, some functions⟩ := congrArg (Option.bind · _) hfunctions

/-- What is written is read back. -/
theorem ofJson?_toJson (package : String) (h : Ascending functions) :
    ofJson? (toJson ⟨package, some functions⟩) = some ⟨package, some functions⟩ := by
  have hobject : Reads maxDepth _ _ := reads_jsonObject 9999 (descriptionMembers package functions)
    (reads_descriptionMembers 9998 package functions)
  rw [ofJson?, toJson_eq, parse?_of_reads hobject]
  exact readMembers_description package h

end TypeInfo

end LemonScript
