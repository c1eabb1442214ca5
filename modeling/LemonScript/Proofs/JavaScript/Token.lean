import LemonScript.Proofs.Text.Digits
import LemonScript.Text.JsonString
import LemonScript.Token.Lexeme
/-!
# The tokens of a JavaScript text

A text is read from left to right: words, strings and single marks, with blanks between them. Texts that
are put side by side are read one after the other, unless a word goes on across the seam or a string is
left open.
-/

namespace LemonScript

open List (append_assoc append_nil cons_append)

namespace JavaScript

/-- What a text is made of. The end of a line is a mark. -/
inductive Token
  | word (letters : List Char)
  | string
  | mark (c : Char)
deriving Repr, DecidableEq

inductive LexState
  | between
  | inWord (letters : List Char)
  | inString
  | escaped
deriving Repr, DecidableEq

variable {cs rest : List Char} {text a : String} {ts : List Token}
variable {c : Char} {w : List Char} {b : String} {us : List Token}

namespace LexState

def start (c : Char) : List Token × LexState :=
  if isIdentifierChar c then ([], inWord [c])
  else if c = '"' then ([], inString)
  else if c = ' ' then ([], between)
  else ([.mark c], between)

def step (c : Char) : LexState → List Token × LexState
  | between => start c
  | inWord letters =>
    if isIdentifierChar c then ([], inWord (letters ++ [c]))
    else (.word letters :: (start c).1, (start c).2)
  | inString =>
    if c = '"' then ([.string], between) else if c = '\\' then ([], escaped) else ([], inString)
  | escaped => ([], inString)

def finish : LexState → List Token
  | inWord letters => [.word letters]
  | _ => []

end LexState

def lex : LexState → List Char → List Token
  | s, [] => s.finish
  | s, c :: cs => (s.step c).1 ++ lex (s.step c).2 cs

def tokens (text : String) : List Token := lex .between text.toList

def Ends (cs : List Char) : Prop := ∀ c ∈ cs.head?, isIdentifierChar c = false

theorem ends_nil : Ends [] := by simp [Ends]

theorem ends_cons : Ends (c :: cs) ↔ isIdentifierChar c = false := by
  simp [Ends]

/-! ### Words, strings and marks -/

theorem lex_inWord (letters : List Char) (h : Ends rest) :
    lex (.inWord letters) rest = .word letters :: lex .between rest := by
  cases rest with
  | nil => rfl
  | cons c cs =>
    have hc : isIdentifierChar c = false := ends_cons.mp h
    simp [lex, LexState.step, hc]

theorem lex_word_aux (letters : List Char) (hw : ∀ c ∈ w, isIdentifierChar c) (h : Ends rest) :
    lex (.inWord letters) (w ++ rest) = .word (letters ++ w) :: lex .between rest := by
  induction w generalizing letters with
  | nil => rw [List.nil_append, append_nil, lex_inWord letters h]
  | cons c w ih =>
    rw [List.forall_mem_cons] at hw
    rw [cons_append, lex, LexState.step, if_pos hw.1]
    simpa using ih (letters ++ [c]) hw.2

theorem lex_word (hne : w ≠ []) (hw : ∀ c ∈ w, isIdentifierChar c) (h : Ends rest) :
    lex .between (w ++ rest) = .word w :: lex .between rest := by
  obtain ⟨c, w, rfl⟩ := List.exists_cons_of_ne_nil hne
  rw [List.forall_mem_cons] at hw
  rw [cons_append, lex, LexState.step, LexState.start, if_pos hw.1]
  exact lex_word_aux [c] hw.2 h

theorem lex_inString_plain (h : ∀ c ∈ cs, c ≠ '"' ∧ c ≠ '\\') :
    lex .inString (cs ++ rest) = lex .inString rest := by
  induction cs with
  | nil => rfl
  | cons c cs ih =>
    rw [List.forall_mem_cons] at h
    rw [cons_append, lex, LexState.step, if_neg h.1.1, if_neg h.1.2]
    exact ih h.2

theorem lex_escape (c : Char) (rest : List Char) : lex .inString ('\\' :: c :: rest) = lex .inString rest := rfl

theorem mem_hexText {width n : Nat} (h : c ∈ hexText width n) : c ≠ '"' ∧ c ≠ '\\' := by
  have hdigit := isHexDigit_of_mem_hexText h
  constructor <;> rintro rfl <;> exact absurd hdigit (by decide)

theorem lex_jsonChar (c : Char) (rest : List Char) :
    lex .inString (jsonChar .plain c ++ rest) = lex .inString rest := by
  unfold jsonChar
  split
  iterate 7 exact lex_escape _ _
  · next hquote hslash _ _ _ _ _ =>
    dsimp only
    split
    · rw [cons_append, cons_append, lex_escape]
      exact lex_inString_plain fun d hd => mem_hexText hd
    · apply lex_inString_plain
      intro d hd
      rw [List.mem_singleton.mp hd]
      exact ⟨hquote, hslash⟩

theorem lex_jsonString (text : String) (rest : List Char) :
    lex .between ((jsonString .plain text).toList ++ rest) = .string :: lex .between rest := by
  have hbody : ∀ cs : List Char, lex .inString (cs.flatMap (jsonChar .plain) ++ '"' :: rest) =
      .string :: lex .between rest := by
    intro cs
    induction cs with
    | nil => rfl
    | cons c cs ih => rw [List.flatMap_cons, append_assoc, lex_jsonChar, ih]
  have hopen : ∀ cs : List Char, lex .between ('"' :: cs) = lex .inString cs := fun _ => rfl
  rw [jsonString, String.toList_ofList, cons_append, hopen, append_assoc]
  exact hbody text.toList

/-! ### Texts side by side -/

def Closes (text : String) (ts : List Token) : Prop :=
  ∀ rest, lex .between (text.toList ++ rest) = ts ++ lex .between rest

/-- The text is read as the tokens if no word goes on behind it. -/
def Spells (text : String) (ts : List Token) : Prop :=
  ∀ rest, Ends rest → lex .between (text.toList ++ rest) = ts ++ lex .between rest

theorem Closes.spells (h : Closes text ts) : Spells text ts :=
  fun rest _ => h rest

theorem Spells.tokens_eq (h : Spells text ts) : tokens text = ts := by
  have hnil := h [] ends_nil
  rwa [append_nil, show lex .between [] = [] from rfl, append_nil] at hnil

theorem Closes.followed (ha : Closes a ts) (hb : Spells b us) : Spells (a ++ b) (ts ++ us) := by
  intro rest h
  rw [String.toList_append, append_assoc, ha, hb rest h, append_assoc]

theorem Closes.append (ha : Closes a ts) (hb : Closes b us) : Closes (a ++ b) (ts ++ us) := by
  intro rest
  rw [String.toList_append, append_assoc, ha, hb rest, append_assoc]

def LexState.after (s : LexState) (cs : List Char) : LexState := cs.foldl (fun s c => (s.step c).2) s

theorem lex_append (s : LexState) (cs : List Char) : ∃ ts, lex s cs = ts ++ (s.after cs).finish ∧
    ∀ rest, lex s (cs ++ rest) = ts ++ lex (s.after cs) rest := by
  induction cs generalizing s with
  | nil => exact ⟨[], rfl, fun _ => rfl⟩
  | cons c cs ih =>
    obtain ⟨ts, hts, hrest⟩ := ih (s.step c).2
    refine ⟨(s.step c).1 ++ ts, ?_, fun rest => ?_⟩
    · rw [lex, hts, append_assoc]
      rfl
    · rw [cons_append, lex, hrest, append_assoc]
      rfl

def LexState.isOutside : LexState → Bool
  | between | inWord _ => true
  | inString | escaped => false

theorem spells_of_isOutside (h : (LexState.between.after text.toList).isOutside) :
    Spells text (tokens text) := by
  intro rest hrest
  obtain ⟨ts, hts, happend⟩ := lex_append .between text.toList
  rw [tokens, hts, happend, append_assoc]
  cases hstate : LexState.between.after text.toList with
  | between => rfl
  | inWord letters => rw [lex_inWord letters hrest, LexState.finish, List.singleton_append]
  | inString | escaped =>
    rw [hstate] at h
    cases h

theorem isOutside_after {s : LexState} (hs : s.isOutside) (h : '"' ∉ cs) :
    (s.after cs).isOutside := by
  induction cs generalizing s with
  | nil => exact hs
  | cons c cs ih =>
    rw [List.mem_cons, not_or] at h
    apply ih _ h.2
    have hstart : (LexState.start c).2.isOutside = true := by
      unfold LexState.start
      split
      · rfl
      · rw [if_neg (Ne.symm h.1)]
        split <;> rfl
    cases s with
    | between => exact hstart
    | inWord =>
      simp only [LexState.step]
      split
      · rfl
      · exact hstart
    | inString | escaped => cases hs

def isClosed (text : String) : Bool := LexState.between.after text.toList = .between

theorem closes_of_isClosed (text : String) (h : isClosed text) : Closes text (tokens text) := by
  intro rest
  obtain ⟨ts, hts, happend⟩ := lex_append .between text.toList
  rw [of_decide_eq_true h] at hts happend
  rw [tokens, hts, happend]
  exact congrArg (· ++ _) (append_nil ts).symm

def isApart (text : String) : Bool := isClosed text && text.toList.head?.any (!isIdentifierChar ·)

theorem Spells.fixed (ha : Spells a ts) (text : String) (h : isApart text) :
    Closes (a ++ text) (ts ++ tokens text) := by
  intro rest
  simp only [isApart, Bool.and_eq_true] at h
  have hends : Ends (text.toList ++ rest) := by
    cases hcs : text.toList with
    | nil => simp [hcs] at h
    | cons => exact ends_cons.mpr (by simpa [hcs] using h.2)
  rw [String.toList_append, append_assoc, ha _ hends, closes_of_isClosed text h.1 rest, append_assoc]

end JavaScript

end LemonScript
