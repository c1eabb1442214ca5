import LemonScript.Proofs.JavaScript.Token
import LemonScript.Proofs.JavaScript.Written
/-!
# The tokens of expressions

A written expression is read back as tokens among which the names are those of its entities, in the same
order. None of the tokens starts a declaration or a jump, and braces come in pairs.
-/

namespace LemonScript

open List (append_assoc append_nil append_subset cons_subset forall_mem_append map_append
  mem_reverse)

namespace JavaScript

/-! ### Names -/

/-- The number behind the last underscore of a word, if it ends in one. -/
def suffix? (letters : List Char) : Option Nat :=
  let digits := (letters.reverse.takeWhile (· != '_')).reverse
  if digits ≠ [] ∧ digits.all Char.isDigit ∧ digits.length < letters.length then
    some (Nat.ofDigitChars 10 digits 0)
  else none

variable {ts : List Token} {id : Int} {name left right : String} {op : BinaryOp}

theorem suffix?_of_numbered (stem : List Char) (n : Nat) :
    suffix? (stem ++ '_' :: Nat.toDigits 10 n) = some n := by
  have hdigits : ((stem ++ '_' :: Nat.toDigits 10 n).reverse.takeWhile (· != '_')).reverse =
      Nat.toDigits 10 n := by
    rw [List.reverse_append, List.reverse_cons, append_assoc, List.takeWhile_append_of_pos]
    · simp
    · intro c hc
      rw [mem_reverse] at hc
      have hne : c ≠ '_' := fun h => Nat.underscore_not_in_toDigits (h ▸ hc)
      simpa using hne
  rw [suffix?, hdigits, if_pos, Nat.ofDigitChars_ten_toDigits]
  refine ⟨Nat.toDigits_ne_nil, ?_, ?_⟩
  · rw [List.all_eq_true]
    exact fun c hc => Nat.isDigit_of_mem_toDigits (by decide) (by decide) hc
  · rw [List.length_append, List.length_cons]
    omega

theorem suffix?_eq_none {letters : List Char} (h : '_' ∉ letters) : suffix? letters = none := by
  have hall : letters.reverse.takeWhile (· != '_') = letters.reverse := by
    rw [List.takeWhile_eq_self_iff]
    intro c hc
    have hne : c ≠ '_' := fun heq => h (heq ▸ mem_reverse.mp hc)
    simpa using hne
  simp [suffix?, hall]

namespace Token

def name? : Token → Option String
  | word letters => if (suffix? letters).isSome then some (String.ofList letters) else none
  | _ => none

def loud : List (List Char) := ["break", "continue", "let", "function"].map String.toList

def isQuiet : Token → Bool
  | word letters => !loud.contains letters
  | mark c => c != '\n'
  | string => true

end Token

/-- Tokens of a part of a statement, with the names among them. -/
structure Inner (ts : List Token) (names : List String) : Prop where
  quiet : ∀ t ∈ ts, t.isQuiet = true
  balanced : ts.count (.mark '\x7b') = ts.count (.mark '\x7d')
  names_eq : ts.filterMap Token.name? = names

theorem Inner.append {us : List Token} {ns ms : List String} (h : Inner ts ns) (h' : Inner us ms) :
    Inner (ts ++ us) (ns ++ ms) where
  quiet := forall_mem_append.mpr ⟨h.quiet, h'.quiet⟩
  balanced := by rw [List.count_append, List.count_append, h.balanced, h'.balanced]
  names_eq := by rw [List.filterMap_append, h.names_eq, h'.names_eq]

def isNameless (ts : List Token) : Bool :=
  ts.all Token.isQuiet && ts.count (.mark '\x7b') == ts.count (.mark '\x7d') &&
    ts.all (·.name?.isNone)

theorem inner_of_isNameless (ts : List Token) (h : isNameless ts) : Inner ts [] := by
  simp only [isNameless, Bool.and_eq_true, List.all_eq_true, beq_iff_eq, Option.isNone_iff_eq_none] at h
  refine ⟨h.1.1, h.1.2, ?_⟩
  rw [List.filterMap_eq_nil_iff]
  exact h.2

theorem Inner.followed {names : List String} (h : Inner ts names) {c : Char}
    (hc : isNameless [.mark c]) : Inner (ts ++ [.mark c]) names := by
  have happend := h.append (inner_of_isNameless _ hc)
  rwa [append_nil] at happend

/-! ### Fragments -/

/-- A text that may be followed by anything but the rest of a word. -/
def Fragment (text : String) (names : List String) : Prop := ∃ ts, Spells text ts ∧ Inner ts names

/-- A text that may be followed by anything. -/
def Opening (text : String) (names : List String) : Prop := ∃ ts, Closes text ts ∧ Inner ts names

variable {a b text : String} {ns ms : List String}

theorem Opening.fragment : Opening a ns → Fragment a ns
  | ⟨ts, h, hinner⟩ => ⟨ts, h.spells, hinner⟩

theorem Opening.append : Opening a ns → Fragment b ms → Fragment (a ++ b) (ns ++ ms)
  | ⟨_, ha, hns⟩, ⟨_, hb, hms⟩ => ⟨_, ha.followed hb, hns.append hms⟩

def isFixed (text : String) : Bool := isClosed text && isNameless (tokens text)

theorem opening_fixed (text : String) (h : isFixed text) : Opening text [] := by
  rw [isFixed, Bool.and_eq_true] at h
  exact ⟨_, closes_of_isClosed text h.1, inner_of_isNameless _ h.2⟩

theorem Opening.fixed (ha : Opening a ns) (text : String) (h : isFixed text) : Opening (a ++ text) ns := by
  obtain ⟨ts, hts, hinner⟩ := ha
  obtain ⟨us, hus, hinner'⟩ := opening_fixed text h
  refine ⟨ts ++ us, hts.append hus, ?_⟩
  have happend := hinner.append hinner'
  rwa [append_nil] at happend

def isSeparator (text : String) : Bool := isApart text && isNameless (tokens text)

theorem Fragment.fixed (ha : Fragment a ns) (text : String) (h : isSeparator text) : Opening (a ++ text) ns := by
  obtain ⟨ts, hts, hinner⟩ := ha
  rw [isSeparator, Bool.and_eq_true] at h
  refine ⟨ts ++ tokens text, hts.fixed text h.1, ?_⟩
  have happend := hinner.append (inner_of_isNameless _ h.2)
  rwa [append_nil] at happend

theorem fragment_fixed (text : String) (houtside : (LexState.between.after text.toList).isOutside)
    (h : isNameless (tokens text)) : Fragment text [] :=
  ⟨_, spells_of_isOutside houtside, inner_of_isNameless _ h⟩

theorem fragment_jsonString (value : String) : Fragment (jsonString .plain value) [] :=
  ⟨[.string], fun rest _ => lex_jsonString value rest, inner_of_isNameless _ (by decide)⟩

def Fragments (texts : List String) (names : List String) : Prop :=
  ∀ text, isSeparator text = true → Fragment (text.intercalate texts) names

theorem fragments_nil : Fragments [] [] :=
  fun _ _ => fragment_fixed "" (by decide) (by decide)

theorem Fragments.cons {texts : List String} (h : Fragments texts ms) (ha : Fragment a ns) :
    Fragments (a :: texts) (ns ++ ms) := by
  intro text htext
  cases texts with
  | nil =>
    obtain ⟨ts, hts, hinner⟩ := h text htext
    have hnil : ts = [] := hts.tokens_eq.symm
    have hms : ms = [] := by rw [← hinner.names_eq, hnil, List.filterMap_nil]
    rw [hms, append_nil, String.intercalate_singleton]
    exact ha
  | cons =>
    rw [String.intercalate_cons_cons]
    exact (ha.fixed _ htext).append (h text htext)

theorem Fragment.braced (h : Fragment a ns) : Opening ("\x7b" ++ a ++ "\x7d") ns := by
  obtain ⟨ts, hts, hinner⟩ := h
  have hopen : Closes "\x7b" [.mark '\x7b'] := closes_of_isClosed _ (by decide)
  refine ⟨[.mark '\x7b'] ++ ts ++ [.mark '\x7d'], (hopen.followed hts).fixed _ (by decide), ?_, ?_, ?_⟩
  · rw [forall_mem_append, forall_mem_append]
    exact ⟨⟨by decide, hinner.quiet⟩, by decide⟩
  · simpa using hinner.balanced
  · rw [List.filterMap_append, List.filterMap_append, hinner.names_eq]
    exact append_nil ns

/-! ### Numbers -/

def numerals : List Char := "0123456789.+-eNaInf".toList

def LexState.letters : LexState → List Char
  | inWord letters => letters
  | _ => []

def Token.chars : Token → List Char
  | word letters => letters
  | mark c => [c]
  | string => []

theorem chars_start (c : Char) :
    (∀ t ∈ (LexState.start c).1, t.chars ⊆ [c]) ∧ (LexState.start c).2.letters ⊆ [c] := by
  unfold LexState.start
  split
  · simp [LexState.letters]
  split
  · simp [LexState.letters]
  split <;> simp [LexState.letters, Token.chars]

theorem chars_step (c : Char) (s : LexState) : (∀ t ∈ (s.step c).1, t.chars ⊆ s.letters ++ [c]) ∧
    (s.step c).2.letters ⊆ s.letters ++ [c] := by
  cases s with
  | between => exact chars_start c
  | inWord letters =>
    simp only [LexState.step]
    split
    · simp [LexState.letters]
    · have hstart := chars_start c
      have hright : [c] ⊆ letters ++ [c] := List.subset_append_right _ _
      refine ⟨List.forall_mem_cons.mpr ⟨List.subset_append_left _ _, fun t ht => ?_⟩,
        List.Subset.trans hstart.2 hright⟩
      exact List.Subset.trans (hstart.1 t ht) hright
  | inString =>
    simp only [LexState.step]
    split
    · simp [LexState.letters, Token.chars]
    split <;> simp [LexState.letters]
  | escaped => simp [LexState.step, LexState.letters]

theorem chars_lex {s : LexState} {cs : List Char} {t : Token} (h : t ∈ lex s cs) : t.chars ⊆ s.letters ++ cs := by
  induction cs generalizing s with
  | nil =>
    cases s with
    | inWord =>
      rw [List.mem_singleton.mp h]
      exact List.subset_append_left _ _
    | between | inString | escaped => simp [lex, LexState.finish] at h
  | cons c cs ih =>
    have hstep := chars_step c s
    have hleft : s.letters ++ [c] ⊆ s.letters ++ c :: cs := by simp
    rcases List.mem_append.mp h with h | h
    · exact List.Subset.trans (hstep.1 t h) hleft
    · apply List.Subset.trans (ih h)
      exact append_subset.mpr ⟨List.Subset.trans hstep.2 hleft, by simp⟩

theorem fragment_numerals (h : text.toList ⊆ numerals) : Fragment text [] := by
  have hquote : '"' ∉ text.toList := fun hmem => absurd (h hmem) (by decide)
  have hchars : ∀ t ∈ tokens text, t.chars ⊆ numerals := fun t ht => List.Subset.trans (chars_lex ht) h
  have hbrace : ∀ c ∉ numerals, (tokens text).count (.mark c) = 0 := by
    intro c hc
    rw [List.count_eq_zero]
    exact fun hmem => hc (hchars _ hmem (List.mem_singleton_self c))
  refine ⟨_, spells_of_isOutside (isOutside_after rfl hquote), ?_, ?_, ?_⟩
  · intro t ht
    have hsub := hchars t ht
    cases t with
    | word letters =>
      have hloud : ∀ w ∈ Token.loud, ¬ w ⊆ numerals := by decide
      have hnot : letters ∉ Token.loud := fun hmem => hloud letters hmem hsub
      simpa [Token.isQuiet] using hnot
    | mark c =>
      have hne : c ≠ '\n' := by
        rintro rfl
        exact absurd (hsub (List.mem_singleton_self _)) (by decide)
      simpa [Token.isQuiet] using hne
    | string => rfl
  · rw [hbrace _ (by decide), hbrace _ (by decide)]
  · rw [List.filterMap_eq_nil_iff]
    intro t ht
    cases t with
    | word letters =>
      have hunderscore : '_' ∉ letters := fun hmem => absurd (hchars _ ht hmem) (by decide)
      simp [Token.name?, suffix?_eq_none hunderscore]
    | mark | string => rfl

theorem toDigits_subset_numerals (n : Nat) : Nat.toDigits 10 n ⊆ numerals := by
  have hdigits : ∀ d < 10, Nat.digitChar d ∈ numerals := by decide
  intro c hc
  obtain ⟨d, hd, rfl⟩ := mem_toDigits (by decide) hc
  exact hdigits d hd

theorem toString_subset_numerals (n : Nat) : (toString n).toList ⊆ numerals := by
  rw [toList_toString]
  exact toDigits_subset_numerals n

theorem toString_int_subset_numerals (n : Int) : (toString n).toList ⊆ numerals := by
  cases n with
  | ofNat n => exact toString_subset_numerals n
  | negSucc n =>
    change ("-" ++ toString (n + 1)).toList ⊆ numerals
    rw [String.toList_append]
    exact append_subset.mpr ⟨by decide, toString_subset_numerals (n + 1)⟩

theorem intText_subset_numerals (n : Int) : (s!"{n}n").toList ⊆ numerals := by
  change (toString n ++ "n").toList ⊆ numerals
  rw [String.toList_append]
  exact append_subset.mpr ⟨toString_int_subset_numerals n, by decide⟩

theorem replicate_subset_numerals (n : Nat) : List.replicate n '0' ⊆ numerals := by
  intro c hc
  rw [List.eq_of_mem_replicate hc]
  decide

theorem ofScaled_subset_numerals (k : Nat) (p : Int) : (Decimal.ofScaled k p).digits ⊆ numerals := by
  intro c hc
  have hmem := (List.dropWhile_sublist _).subset (mem_reverse.mp hc)
  exact toDigits_subset_numerals k (mem_reverse.mp hmem)

theorem search_subset_numerals (i : Decimal.Interval) (leading e : Int) (count left : Nat) :
    (Decimal.search i leading e count left).digits ⊆ numerals := by
  induction left generalizing count with
  | zero => exact ofScaled_subset_numerals _ _
  | succ left ih =>
    unfold Decimal.search
    dsimp only
    split
    · exact ofScaled_subset_numerals _ _
    · exact ih (count + 1)

theorem pointed_subset_numerals {digits : List Char} (h : digits ⊆ numerals) (n : Nat) :
    Decimal.pointed digits n ⊆ numerals := by
  have hwhole : digits.take n ++ List.replicate (n - digits.length) '0' ⊆ numerals :=
    append_subset.mpr ⟨List.Subset.trans (List.take_subset n digits) h, replicate_subset_numerals _⟩
  unfold Decimal.pointed
  dsimp only
  split
  · exact hwhole
  · apply append_subset.mpr ⟨hwhole, cons_subset.mpr ⟨by decide, _⟩⟩
    exact List.Subset.trans (List.drop_subset n digits) h

theorem exponentText_subset_numerals (e : Int) : Decimal.exponentText e ⊆ numerals := by
  have hdigits := toDigits_subset_numerals e.natAbs
  unfold Decimal.exponentText
  refine cons_subset.mpr ⟨by split <;> decide, ?_⟩
  split
  · exact cons_subset.mpr ⟨by decide, hdigits⟩
  · exact hdigits

theorem decimal_text_subset_numerals {d : Decimal} (h : d.digits ⊆ numerals) : d.text ⊆ numerals := by
  unfold Decimal.text
  split
  · exact append_subset.mpr ⟨pointed_subset_numerals h 1,
      cons_subset.mpr ⟨by decide, exponentText_subset_numerals _⟩⟩
  split
  · exact cons_subset.mpr ⟨by decide, cons_subset.mpr ⟨by decide,
      append_subset.mpr ⟨replicate_subset_numerals _, h⟩⟩⟩
  · exact pointed_subset_numerals h _

theorem floatText_subset_numerals (x : Float) : (floatText x).toList ⊆ numerals := by
  unfold floatText
  split
  · decide
  · split <;> decide
  · next negative m q _ =>
    have hdigits : (if m == 0 then ['0'] else (Decimal.shortest m q).text) ⊆ numerals := by
      split
      · decide
      · exact decimal_text_subset_numerals (search_subset_numerals _ _ _ _ _)
    rw [String.toList_ofList]
    split
    · exact cons_subset.mpr ⟨by decide, hdigits⟩
    · exact hdigits

/-! ### Expressions -/

variable {table : List Int} {E : Vocabulary} {Γ : Site}

def mentionText (table : List Int) (m : Mention) : String := nameText table m.id m.name

theorem toList_nameText (table : List Int) (id : Int) (name : String) :
    (nameText table id name).toList = name.toList ++ '_' :: Nat.toDigits 10 (table.idxOf id + 1) := by
  change (name ++ "_" ++ toString (table.idxOf id + 1)).toList = _
  rw [String.toList_append, String.toList_append, toList_toString, append_assoc]
  rfl

theorem spells_nameText (h : IsName name) :
    Spells (nameText table id name) [.word (nameText table id name).toList] := by
  intro rest hrest
  have hword : ∀ c ∈ (nameText table id name).toList, isIdentifierChar c = true := by
    have hdigits : ∀ d < 10, isIdentifierChar (Nat.digitChar d) = true := by decide
    rw [toList_nameText, forall_mem_append, List.forall_mem_cons]
    refine ⟨h.word, by decide, fun c hc => ?_⟩
    obtain ⟨d, hd, rfl⟩ := mem_toDigits (by decide) hc
    exact hdigits d hd
  have hne : (nameText table id name).toList ≠ [] := by simp [toList_nameText]
  exact lex_word hne hword hrest

theorem suffix?_nameText (table : List Int) (id : Int) (name : String) :
    suffix? (nameText table id name).toList = some (table.idxOf id + 1) := by
  rw [toList_nameText]
  exact suffix?_of_numbered _ _

theorem name?_nameText (table : List Int) (id : Int) (name : String) :
    Token.name? (.word (nameText table id name).toList) = some (nameText table id name) := by
  simp [Token.name?, suffix?_nameText]

theorem isQuiet_nameText (table : List Int) (id : Int) (name : String) :
    Token.isQuiet (.word (nameText table id name).toList) := by
  have hloud : ∀ w ∈ Token.loud, suffix? w = none := by decide
  have hnot : (nameText table id name).toList ∉ Token.loud := by
    intro hmem
    have hnone := hloud _ hmem
    rw [suffix?_nameText] at hnone
    cases hnone
  simpa [Token.isQuiet] using hnot

theorem fragment_nameText (h : IsName name) :
    Fragment (nameText table id name) [nameText table id name] :=
  ⟨_, spells_nameText h, by simpa using isQuiet_nameText table id name, rfl,
    by simp [name?_nameText]⟩

theorem fragment_own {m : Mention} (h : E.Has m.id m.name) :
    Fragment (nameText table m.id m.name) (m.own.map (mentionText table)) := by
  rw [Mention.own_of_not_isLibrary (E.own h)]
  exact fragment_nameText (E.isName h)

theorem fragment_variable {v : Variable} {declares : Bool} (h : v.id = Library.pi.id ∨ E.Has v.id v.name) :
    Fragment (variableText table v) ((Mention.ofVariable declares v).own.map (mentionText table)) := by
  rw [variableText]
  rcases h with h | h
  · rw [Mention.own_of_isLibrary (show Library.isLibrary v.id = true by rw [h]; rfl), h]
    exact fragment_fixed "Math.PI" (by decide) (by decide)
  · rw [beq_library_of_vocabulary h rfl]
    exact fragment_own (m := Mention.ofVariable declares v) h

theorem isFixed_operatorText (h : op.IsInfix) : isFixed (operatorText op) := by
  cases op <;> first | decide | exact h.elim

theorem fragment_binary (h : op.IsInfix) (hleft : Fragment left ns) (hright : Fragment right ms) :
    Fragment (binaryText left op right) (ns ++ ms) := by
  have hinfix : Fragment ("(" ++ left ++ " " ++ operatorText op ++ " " ++ right ++ ")") (ns ++ ms) := by
    have hopen : Fragment ("(" ++ left) ns := (opening_fixed _ (by decide)).append hleft
    exact ((((hopen.fixed _ (by decide)).fixed _ (isFixed_operatorText h)).fixed _ (by decide)).append
      hright).fixed _ (by decide) |>.fragment
  cases op
  case pow =>
    simp only [binaryText]
    split
    · have hopen : Fragment ("((" ++ left) ns := (opening_fixed _ (by decide)).append hleft
      exact ((hopen.fixed _ (by decide)).append hright).fixed _ (by decide) |>.fragment
    · have hopen : Fragment ("(" ++ left) ns := (opening_fixed _ (by decide)).append hleft
      exact ((hopen.fixed _ (by decide)).append hright).fixed _ (by decide) |>.fragment
  case addAssign | subAssign | other => exact h.elim
  all_goals exact hinfix

theorem fragment_unary {operand : String} {op : UnaryOp} (h : op.IsSign ∨ op.IsUpdate) (leading : Bool)
    (hoperand : Fragment operand ns) : Fragment (unaryText op operand leading) ns := by
  have hfixed : isFixed op.spelling = true ∧ isSeparator op.spelling = true := by
    rcases h with h | h <;> cases op <;> first | decide | exact h.elim
  unfold unaryText
  split
  · have hopen := ((opening_fixed _ hfixed.1).fixed "(" (by decide)).append hoperand
    exact (hopen.fixed _ (by decide)).fragment
  · exact (hoperand.fixed _ hfixed.2).fragment

theorem fragment_call {callee : Node} {f args : String} (hargs : Fragment args ms)
    (hcallee : callee.isLibraryFunction ∧ ns = [] ∨ Vocabulary.Tree E callee ∧ Fragment f ns) :
    Fragment (callText callee f args) (ns ++ ms) := by
  have hcall : Fragment f ns → Fragment (f ++ "(" ++ args ++ ")") (ns ++ ms) := fun h =>
    (((h.fixed _ (by decide)).append hargs).fixed _ (by decide)).fragment
  cases callee with
  | fn g =>
    rw [callText]
    rcases hcallee with ⟨hlibrary, rfl⟩ | ⟨hg, hf⟩
    · by_cases hpour : (g.id == Library.pour.id) = true
      · rw [if_pos hpour]
        exact (((opening_fixed "console.log(__show(" (by decide)).append hargs).fixed _
          (by decide)).fragment
      · have hspecies : (g.id == Library.species.id) = true := by
          simpa [Node.isLibraryFunction, hpour] using hlibrary
        rw [if_neg hpour, if_pos hspecies]
        exact (opening_fixed "typeof " (by decide)).append hargs
    · rw [beq_library_of_vocabulary hg rfl, beq_library_of_vocabulary hg rfl]
      exact hcall hf
  | _ =>
    rcases hcallee with ⟨hlibrary, -⟩ | ⟨-, hf⟩
    · cases hlibrary
    · exact hcall hf

mutual

theorem fragment_expression : ∀ {n : Node}, Scoped.Expression Γ n → Vocabulary.Tree E n →
    Fragment (expressionText table n) (n.mentions.map (mentionText table))
  | .var v, _, hn => fragment_variable hn
  | .fn f, _, hn => fragment_own (m := Mention.ofFunction false f) hn
  | .intLit n, _, _ => fragment_numerals (intText_subset_numerals n)
  | .floatLit x, _, _ => fragment_numerals (floatText_subset_numerals x)
  | .stringLit value, _, _ => fragment_jsonString value
  | .boolLit _ true _, _, _ => fragment_fixed "true" (by decide) (by decide)
  | .boolLit _ false _, _, _ => fragment_fixed "false" (by decide) (by decide)
  | .binary left op right _, h, hn => by
    rw [expressionText, Node.mentions, map_append]
    exact fragment_binary h.1 (fragment_expression h.2.1 hn.1) (fragment_expression h.2.2 hn.2)
  | .unary op operand leading _, h, hn =>
    fragment_unary (.inl h.1) leading (fragment_expression (n := operand) h.2 hn)
  | .call callee args _, h, hn => by
    rw [expressionText, Node.mentions, map_append]
    apply fragment_call (fragments_optional h.2 hn.2 ", " (by decide))
    rcases hn.1 with hlibrary | hcallee
    · exact .inl ⟨hlibrary, by rw [Node.mentions_of_isLibraryFunction hlibrary, List.map_nil]⟩
    · exact .inr ⟨hcallee, fragment_expression h.1 hcallee⟩
  | .arrayLit elements _, h, hn => by
    have helements := fragments_optional (l := elements) h hn "," (by decide)
    exact (((opening_fixed _ (by decide)).append helements).fixed _ (by decide)).fragment
  | .mapLit entries _, h, hn => (fragments_entries (l := entries) h hn ", " (by decide)).braced.fragment
  | .member array index _, h, hn => by
    have hopen := (opening_fixed "(" (by decide)).append (fragment_expression (n := array) h.2 hn)
    have hindex : Fragment (toString (index.getD 0)) [] :=
      fragment_numerals (toString_int_subset_numerals _)
    have hall := (((hopen.fixed "[" (by decide)).append hindex).fixed "])"
      (by decide)).fragment
    rwa [append_nil] at hall
  | .property map key _, h, hn => by
    rw [expressionText, Node.mentions, map_append]
    have hopen := (opening_fixed "(" (by decide)).append (fragment_expression h.1 hn.1)
    exact (((hopen.fixed _ (by decide)).append (fragment_expression h.2 hn.2)).fixed _ (by decide)).fragment

theorem fragments_expressions : ∀ {l : List Node}, Scoped.Expressions Γ l → Vocabulary.Trees E l →
    Fragments (expressionTexts table l) ((Node.mentionsOfAll l).map (mentionText table))
  | [], _, _ => fragments_nil
  | n :: ns, h, hl => by
    rw [expressionTexts, Node.mentionsOfAll, map_append]
    exact (fragments_expressions h.2 hl.2).cons (fragment_expression h.1 hl.1)

theorem fragments_optional : ∀ {l : Option (List Node)}, Scoped.Optional Γ l → Vocabulary.Optional E l →
    Fragments (optionalTexts table l) ((Node.mentionsIn l).map (mentionText table))
  | none, _, _ => fragments_nil
  | some ns, h, hl => fragments_expressions (l := ns) h hl

theorem fragments_entries : ∀ {l : List (Entry Node)}, Scoped.Entries Γ l → Vocabulary.Entries E l →
    Fragments (entryTexts table l) ((Node.mentionsOfEntries l).map (mentionText table))
  | [], _, _ => fragments_nil
  | ⟨key, value⟩ :: rest, h, hl => by
    rw [entryTexts, Node.mentionsOfEntries, map_append, map_append, ← append_assoc]
    have hopen := (opening_fixed "[" (by decide)).append (fragment_expression h.1 hl.1)
    have hentry := (hopen.fixed "]: " (by decide)).append (fragment_expression h.2.1 hl.2.1)
    exact (fragments_entries h.2.2 hl.2.2).cons hentry

end

theorem fragment_compound (h : op.IsUpdate) (hleft : Fragment left ns) (hright : Fragment right ms) :
    Fragment (binaryText left op right) (ns ++ ms) := by
  have hall : isFixed op.spelling = true → Fragment (left ++ " " ++ op.spelling ++ " " ++ right) (ns ++ ms) :=
    fun hop => (((hleft.fixed _ (by decide)).fixed _ hop).fixed _ (by decide)).append hright
  cases op with
  | addAssign | subAssign => exact hall (by decide)
  | _ => exact h.elim

theorem fragment_update {n : Node} (h : Scoped.Update Γ n) (hn : Vocabulary.Tree E n) :
    Fragment (expressionText table n) (n.mentions.map (mentionText table)) := by
  unfold Scoped.Update at h
  split at h
  · next v op right type =>
    rw [expressionText, expressionText, Node.mentions, Node.mentions, map_append]
    exact fragment_compound h.2.1 (fragment_variable hn.1) (fragment_expression h.2.2 hn.2)
  · next op v leading type =>
    have hv : Fragment (variableText table v) ((Mention.ofVariable false v).own.map (mentionText table)) :=
      fragment_variable hn
    exact fragment_unary (.inr h.2) leading hv
  · exact h.elim

end JavaScript

end LemonScript
