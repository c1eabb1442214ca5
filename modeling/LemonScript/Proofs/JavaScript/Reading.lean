import LemonScript.Proofs.JavaScript.Spelling
/-!
# What the lines of a program say

A line is read by its tokens alone: whether it opens or closes a block, jumps, or does neither, and which
names it declares and uses. Every line of a written program can be read, and what it says is known from
the tree.
-/

namespace LemonScript

open List (append_nil cons_append getLast?_concat)

namespace JavaScript

open JavaScript.Token (word mark)

inductive Block
  | loop
  | switch
  | function
  | plain
deriving Repr, DecidableEq

def Block.ofHead : List Token → Block
  | word letters :: _ =>
    if letters = "while".toList ∨ letters = "for".toList then loop
    else if letters = "switch".toList then switch
    else if letters = "function".toList then function
    else plain
  | _ => plain

inductive Row
  | opens (label : Option (List Char)) (block : Block)
  | reopens
  | closes
  | leaves (label : Option (List Char))
  | continues
  | plain
deriving Repr, DecidableEq

/-- Tokens without jumps in which every brace has its partner. -/
def isInside (ts : List Token) : Bool :=
  !ts.contains (word "break".toList) && !ts.contains (word "continue".toList) &&
    ts.count (mark '\x7b') == ts.count (mark '\x7d')

def splitLabel (ts : List Token) : Option (List Char) × List Token :=
  match ts with
  | word letters :: mark ':' :: rest =>
    if rest.getLast? = some (mark '\x7b') then (some letters, rest) else (none, ts)
  | _ => (none, ts)

def breakLabel? : List Token → Option (Option (List Char))
  | [word letters, mark ';'] => if letters = "break".toList then some none else none
  | [word letters, word label, mark ';'] => if letters = "break".toList then some (some label) else none
  | _ => none

/-- Reads a line that stands behind a label, if there is one. -/
def Row.ofTokens (label : Option (List Char)) (ts : List Token) : Option Row :=
  if ts = [mark '\x7d'] then some .closes
  else if ts = [word "continue".toList, mark ';'] then some .continues
  else
    match breakLabel? ts with
    | some label => some (.leaves label)
    | none =>
      if ts.getLast? = some (mark '\x7b') then
        match ts.dropLast with
        | mark '\x7d' :: rest => if isInside rest then some .reopens else none
        | head => if isInside head then some (.opens label (.ofHead head)) else none
      else if ts ≠ [] ∧ isInside ts then some .plain
      else none

structure Occurrence where
  name : String
  declares : Bool
deriving Repr, DecidableEq

def occurrences (declares : Bool) : List Token → List Occurrence
  | [] => []
  | t :: ts => (t.name?.map fun name => ⟨name, declares⟩).toList ++ occurrences (t == word "let".toList) ts

/-- The names of a line. The head of a function declares all of its names, and labels are no names. -/
def lineNames (ts : List Token) : List Occurrence :=
  match ts with
  | word letters :: rest =>
    if letters = "function".toList then (rest.filterMap Token.name?).map fun name => ⟨name, true⟩
    else if letters = "break".toList then []
    else occurrences false ts
  | _ => occurrences false ts

structure Reading where
  row : Row
  names : List Occurrence
deriving Repr, DecidableEq

def Reading.ofTokens (ts : List Token) : Option Reading :=
  (Row.ofTokens (splitLabel ts).1 (splitLabel ts).2).map fun row => ⟨row, lineNames (splitLabel ts).2⟩

def textLines (text : String) : List (List Token) :=
  ((tokens text).splitOn (mark '\n')).filter (· ≠ [])

def readText (text : String) : Option (List Reading) := (textLines text).mapM Reading.ofTokens

/-! ### Lines by their tokens -/

variable {a : String} {rs : List Reading}

theorem isInside_append {ts us : List Token} (h : isInside ts) (h' : isInside us) :
    isInside (ts ++ us) := by
  simp only [isInside, Bool.and_eq_true, Bool.not_eq_true', beq_iff_eq, List.contains_append,
    Bool.or_eq_false_iff, List.count_append] at h h' ⊢
  exact ⟨⟨⟨h.1.1, h'.1.1⟩, h.1.2, h'.1.2⟩, by omega⟩

theorem Inner.isInside {ts : List Token} {ns : List String} (h : Inner ts ns) : isInside ts := by
  have hloud : ∀ w ∈ Token.loud, word w ∉ ts := by
    intro w hw hmem
    have hquiet := h.quiet _ hmem
    simp [Token.isQuiet, hw] at hquiet
  simp only [JavaScript.isInside, Bool.and_eq_true, Bool.not_eq_true', beq_iff_eq, ← Bool.not_eq_true,
    List.contains_iff_mem]
  exact ⟨⟨hloud _ (by decide), hloud _ (by decide)⟩, h.balanced⟩

theorem breakLabel?_of_isInside {ts : List Token} (h : isInside ts) : breakLabel? ts = none := by
  have hword : ∀ letters, word letters ∈ ts → letters ≠ "break".toList := by
    rintro letters hmem rfl
    simp only [isInside, List.contains_iff_mem.2 hmem, Bool.not_true, Bool.false_and, Bool.false_eq_true] at h
  unfold breakLabel?
  split
  · exact if_neg (hword _ (by simp))
  · exact if_neg (hword _ (by simp))
  · rfl

theorem splitLabel_of_last {ts : List Token} (h : ts.getLast? ≠ some (mark '\x7b')) :
    splitLabel ts = (none, ts) := by
  unfold splitLabel
  split
  · next letters rest =>
    cases rest with
    | nil => rfl
    | cons =>
      rw [List.getLast?_cons_cons, List.getLast?_cons_cons] at h
      exact if_neg h
  · rfl

theorem ofTokens_plain {ts : List Token} (hne : ts ≠ []) (hinside : isInside ts)
    (hlast : ts.getLast? ≠ some (mark '\x7b')) :
    Reading.ofTokens ts = some ⟨.plain, lineNames ts⟩ := by
  have hbrace : ts ≠ [mark '\x7d'] := by
    rintro rfl
    exact absurd hinside (by decide)
  have hcontinue : ts ≠ [word "continue".toList, mark ';'] := by
    rintro rfl
    exact absurd hinside (by decide)
  rw [Reading.ofTokens, splitLabel_of_last hlast, Row.ofTokens, if_neg hbrace, if_neg hcontinue,
    breakLabel?_of_isInside hinside, if_neg hlast, if_pos ⟨hne, hinside⟩]
  rfl

theorem breakLabel?_of_last {ts : List Token} (h : ts.getLast? = some (mark '\x7b')) : breakLabel? ts = none := by
  unfold breakLabel?
  split
  · simp at h
  · simp at h
  · rfl

theorem row_head {label : Option (List Char)} {letters : List Char} {ts : List Token}
    (hinside : isInside (word letters :: ts)) :
    Row.ofTokens label (word letters :: (ts ++ [mark '\x7b'])) =
      some (.opens label (.ofHead [word letters])) := by
  have hlast : (word letters :: (ts ++ [mark '\x7b']) : List Token).getLast? = some (mark '\x7b') := by
    rw [← cons_append, getLast?_concat]
  have hcontinue : word letters :: (ts ++ [mark '\x7b']) ≠ [word "continue".toList, mark ';'] := by
    intro h
    rw [h] at hlast
    exact absurd hlast (by decide)
  rw [Row.ofTokens, if_neg (by simp), if_neg hcontinue, breakLabel?_of_last hlast]
  dsimp only
  rw [if_pos hlast, ← cons_append, List.dropLast_concat]
  simp only [hinside]
  rfl

theorem ofTokens_head {letters : List Char} {t : Token} {ts : List Token} (ht : t ≠ mark ':')
    (hinside : isInside (word letters :: t :: ts)) :
    Reading.ofTokens (word letters :: t :: (ts ++ [mark '\x7b'])) =
      some ⟨.opens none (.ofHead [word letters]), lineNames (word letters :: t :: (ts ++ [mark '\x7b']))⟩ := by
  have hsplit : splitLabel (word letters :: t :: (ts ++ [mark '\x7b'])) =
      (none, word letters :: t :: (ts ++ [mark '\x7b'])) := by
    unfold splitLabel
    split
    · simp_all
    · rfl
  rw [Reading.ofTokens, hsplit, ← cons_append, row_head hinside]
  rfl

theorem ofTokens_labelled {label letters : List Char} {ts : List Token}
    (hinside : isInside (word letters :: ts)) :
    Reading.ofTokens (word label :: mark ':' :: word letters :: (ts ++ [mark '\x7b'])) =
      some ⟨.opens (some label) (.ofHead [word letters]), lineNames (word letters :: (ts ++ [mark '\x7b']))⟩ := by
  have hsplit : splitLabel (word label :: mark ':' :: word letters :: (ts ++ [mark '\x7b'])) =
      (some label, word letters :: (ts ++ [mark '\x7b'])) := by
    rw [splitLabel, if_pos]
    rw [← cons_append, getLast?_concat]
  rw [Reading.ofTokens, hsplit, row_head hinside]
  rfl

theorem ofTokens_reopens {ts : List Token} (hinside : isInside ts) :
    Reading.ofTokens (mark '\x7d' :: (ts ++ [mark '\x7b'])) =
      some ⟨.reopens, occurrences false (ts ++ [mark '\x7b'])⟩ := by
  have hlast : (mark '\x7d' :: (ts ++ [mark '\x7b']) : List Token).getLast? = some (mark '\x7b') := by
    rw [← cons_append, getLast?_concat]
  have hsplit : splitLabel (mark '\x7d' :: (ts ++ [mark '\x7b'])) =
      (none, mark '\x7d' :: (ts ++ [mark '\x7b'])) := rfl
  rw [Reading.ofTokens, hsplit, Row.ofTokens, if_neg (by simp), if_neg (by simp), breakLabel?_of_last hlast]
  dsimp only
  rw [if_pos hlast, ← cons_append, List.dropLast_concat]
  simp only [hinside]
  rfl

/-! ### Names of lines -/

variable {ts us : List Token} {ns ms : List String}

theorem occurrences_inner (h : Inner ts ns) (us : List Token) :
    occurrences false (ts ++ us) = ns.map (Occurrence.mk · false) ++ occurrences false us := by
  obtain ⟨hquiet, -, rfl⟩ := h
  induction ts with
  | nil => rfl
  | cons t ts ih =>
    rw [List.forall_mem_cons] at hquiet
    have hlet : (t == word "let".toList) = false := by
      rw [beq_eq_false_iff_ne]
      rintro rfl
      exact absurd hquiet.1 (by decide)
    rw [cons_append, occurrences, hlet, ih hquiet.2]
    cases hname : t.name? <;> simp [hname]

theorem lineNames_inner (h : Inner ts ns) : lineNames ts = ns.map (Occurrence.mk · false) := by
  have hall : occurrences false ts = ns.map (Occurrence.mk · false) := by
    have hnil := occurrences_inner h []
    rwa [append_nil, occurrences, append_nil] at hnil
  unfold lineNames
  split
  · next letters rest =>
    have hloud : letters ∉ Token.loud := by simpa [Token.isQuiet] using h.quiet _ List.mem_cons_self
    have hfunction : letters ≠ "function".toList := by
      rintro rfl
      exact hloud (by decide)
    have hbreak : letters ≠ "break".toList := by
      rintro rfl
      exact hloud (by decide)
    rw [if_neg hfunction, if_neg hbreak, hall]
  · exact hall

variable {table : List Int} {id : Int} {name : String}

/-- The name behind `let` is declared. -/
theorem occurrences_let (us : List Token) :
    occurrences false (word "let".toList :: word (nameText table id name).toList :: us) =
      ⟨nameText table id name, true⟩ :: occurrences false us := by
  have hlet : (word (nameText table id name).toList == word "let".toList) = false := by
    rw [beq_eq_false_iff_ne]
    intro h
    have hquiet := isQuiet_nameText table id name
    rw [h] at hquiet
    exact absurd hquiet (by decide)
  rw [occurrences, occurrences, hlet, name?_nameText]
  rfl

theorem inner_nameText (table : List Int) (id : Int) (name : String) :
    Inner [word (nameText table id name).toList] [nameText table id name] :=
  ⟨by simpa using isQuiet_nameText table id name, rfl, by simp [name?_nameText]⟩

/-! ### Written lines -/

def Says (text : String) (r : Reading) : Prop :=
  ∃ ts, Spells text ts ∧ mark '\n' ∉ ts ∧ Reading.ofTokens ts = some r

abbrev Line.Says (l : Line) (r : Reading) : Prop := JavaScript.Says l.render r

variable {depth : Nat} {text : String} {r : Reading}

theorem spells_render (h : Spells text ts) : Spells (Line.mk depth text).render ts := by
  have hblanks : ∀ (n : Nat) (cs : List Char),
      lex .between (List.replicate n ' ' ++ cs) = lex .between cs := by
    intro n cs
    induction n with
    | zero => rfl
    | succ n ih => exact ih
  intro rest hrest
  rw [Line.render, String.toList_append, String.toList_ofList, List.append_assoc, hblanks, h rest hrest]

theorem says_of_spells (h : Spells text ts) (hline : mark '\n' ∉ ts)
    (hr : Reading.ofTokens ts = some r) : (Line.mk depth text).Says r :=
  ⟨ts, spells_render h, hline, hr⟩

theorem says_ofList {cs : List Char} (houtside : (LexState.between.after cs).isOutside)
    (hline : mark '\n' ∉ lex .between cs) (hr : Reading.ofTokens (lex .between cs) = some r) :
    Says (String.ofList cs) r := by
  rw [← String.toList_ofList (l := cs)] at houtside hline hr
  exact ⟨_, spells_of_isOutside houtside, hline, hr⟩

theorem Says.line (h : Says text r) : (Line.mk depth text).Says r := by
  obtain ⟨ts, hts, hr⟩ := h
  exact ⟨ts, spells_render hts, hr⟩

theorem Inner.newline_notMem (h : Inner ts ns) : mark '\n' ∉ ts :=
  fun hmem => absurd (h.quiet _ hmem) (by decide)

theorem says_plain {last : String} (h : Fragment a ns) (hlast : last = ";" ∨ last = ":") :
    (Line.mk depth (a ++ last)).Says ⟨.plain, ns.map (Occurrence.mk · false)⟩ := by
  obtain ⟨ts, hts, hinner⟩ := h
  obtain ⟨c, hapart, htokens, hc, hne⟩ : ∃ c, isApart last = true ∧ tokens last = [mark c] ∧
      isNameless [mark c] = true ∧ c ≠ '\x7b' := by
    rcases hlast with rfl | rfl
    · exact ⟨';', by decide⟩
    · exact ⟨':', by decide⟩
  have hall : Inner (ts ++ [mark c]) ns := hinner.followed hc
  have hspells : Spells (a ++ last) (ts ++ [mark c]) := by
    rw [← htokens]
    exact (hts.fixed _ hapart).spells
  apply says_of_spells hspells hall.newline_notMem
  rw [ofTokens_plain (by simp) hall.isInside, lineNames_inner hall]
  rw [getLast?_concat]
  simpa using hne

theorem inner_mark {c : Char} (h : isNameless [mark c]) (hinner : Inner ts ns) :
    Inner (mark c :: ts) ns :=
  (inner_of_isNameless _ h).append hinner

theorem isInside_let (h : isInside us) :
    isInside (word "let".toList :: word (nameText table id name).toList :: us) := by
  have hlet : isInside [word "let".toList] = true := by decide
  exact isInside_append hlet (isInside_append (inner_nameText table id name).isInside h)

theorem newline_notMem_let (h : mark '\n' ∉ us) :
    mark '\n' ∉ word "let".toList :: word (nameText table id name).toList :: us := by
  simpa using h

theorem says_let (h : Spells text (word "let".toList :: word (nameText table id name).toList ::
    (ts ++ [mark ';']))) (hinner : Inner ts ns) : (Line.mk depth text).Says
      ⟨.plain, ⟨nameText table id name, true⟩ :: ns.map (Occurrence.mk · false)⟩ := by
  have hall : Inner (ts ++ [mark ';']) ns := hinner.followed (by decide)
  have hlast : (word "let".toList :: word (nameText table id name).toList :: (ts ++ [mark ';']) :
      List Token).getLast? ≠ some (mark '\x7b') := by
    rw [← cons_append, ← cons_append, getLast?_concat]
    decide
  apply says_of_spells h (newline_notMem_let hall.newline_notMem)
  rw [ofTokens_plain (by simp) (isInside_let hall.isInside) hlast, lineNames, if_neg (by decide),
    if_neg (by decide), occurrences_let]
  have hnames := occurrences_inner hall []
  rw [append_nil, occurrences, append_nil] at hnames
  rw [hnames]

def heads : List (List Char) := ["if", "switch", "while", "for"].map String.toList

variable {letters : List Char}

theorem lineNames_head (h : letters ∈ heads) :
    lineNames (word letters :: mark '(' :: us) = occurrences false us := by
  have hword : ∀ w ∈ heads, w ≠ "function".toList ∧ w ≠ "break".toList ∧ Token.name? (word w) = none ∧
      (word w == word "let".toList) = false := by decide
  obtain ⟨hfunction, hbreak, hname, hlet⟩ := hword letters h
  rw [lineNames, if_neg hfunction, if_neg hbreak, occurrences, hname, hlet]
  rfl

theorem isInside_head (h : letters ∈ heads) (hts : isInside ts) :
    isInside (word letters :: mark '(' :: ts) := by
  have hword : ∀ w ∈ heads, isInside [word w, mark '('] = true := by decide
  exact isInside_append (hword letters h) hts

theorem says_head (hletters : letters ∈ heads)
    (h : Spells text (word letters :: mark '(' :: (ts ++ [mark '\x7b']))) (hinside : isInside ts)
    (hline : mark '\n' ∉ ts) : (Line.mk depth text).Says
      ⟨.opens none (.ofHead [word letters]), occurrences false (ts ++ [mark '\x7b'])⟩ := by
  apply says_of_spells h (by simpa using hline)
  rw [ofTokens_head (by simp) (isInside_head hletters hinside), lineNames_head hletters]

theorem says_reopens (h : Spells text (mark '\x7d' :: (ts ++ [mark '\x7b']))) (hinner : Inner ts ns) :
    (Line.mk depth text).Says ⟨.reopens, ns.map (Occurrence.mk · false)⟩ := by
  have hnames : occurrences false (ts ++ [mark '\x7b']) = ns.map (Occurrence.mk · false) := by
    rw [occurrences_inner hinner]
    exact append_nil _
  have hline : mark '\n' ∉ mark '\x7d' :: (ts ++ [mark '\x7b']) := by
    simpa using hinner.newline_notMem
  apply says_of_spells h hline
  rw [ofTokens_reopens hinner.isInside, hnames]

def labelLetters (n : Nat) : List Char := (labelText n).toList

def Frame.label : Frame → Option (List Char)
  | .loop (some label) => some (labelLetters label)
  | _ => none

theorem labelLetters_eq (n : Nat) : labelLetters n = "loop_".toList ++ Nat.toDigits 10 n := by
  change ("loop_" ++ toString n).toList = _
  rw [String.toList_append, toList_toString]

theorem spells_labelText (n : Nat) : Spells (labelText n) [word (labelLetters n)] := by
  intro rest hrest
  have hstem : "loop_".toList.all isIdentifierChar = true := by decide
  have hdigits : ∀ d < 10, isIdentifierChar (Nat.digitChar d) = true := by decide
  have hword : ∀ c ∈ labelLetters n, isIdentifierChar c = true := by
    rw [labelLetters_eq, List.forall_mem_append]
    refine ⟨List.all_eq_true.mp hstem, fun c hc => ?_⟩
    obtain ⟨d, hd, rfl⟩ := mem_toDigits (by decide) hc
    exact hdigits d hd
  have hne : labelLetters n ≠ [] := by simp [labelLetters_eq]
  exact lex_word hne hword hrest

theorem says_loop (hletters : letters ∈ heads) (hloop : Block.ofHead [word letters] = .loop)
    (h : Spells text (word letters :: mark '(' :: (ts ++ [mark '\x7b'])))
    (hinside : isInside ts) (hline : mark '\n' ∉ ts) (frame : Frame) :
    (loopHeader depth text frame).Says
      ⟨.opens frame.label .loop, occurrences false (ts ++ [mark '\x7b'])⟩ := by
  have hplain : (Line.mk depth text).Says _ := says_head hletters h hinside hline
  rw [hloop] at hplain
  unfold loopHeader
  split
  · next label =>
    have hspells : Spells (labelText label ++ ": " ++ text) (word (labelLetters label) :: mark ':' ::
        word letters :: (mark '(' :: ts ++ [mark '\x7b'])) :=
      ((spells_labelText label).fixed _ (by decide)).followed h
    apply says_of_spells hspells (by simpa using hline)
    rw [ofTokens_labelled (isInside_head hletters hinside), hloop, cons_append, lineNames_head hletters]
    rfl
  · next hlabel =>
    have hnone : frame.label = none := by
      unfold Frame.label
      split
      · exact absurd rfl (hlabel _)
      · rfl
    rw [hnone]
    exact hplain

theorem says_function (h : Spells text (word "function".toList :: word (nameText table id name).toList ::
    (ts ++ [mark '\x7b']))) (hinner : Inner ts ns) :
    (Line.mk depth text).Says ⟨.opens none .function,
      ⟨nameText table id name, true⟩ :: ns.map (Occurrence.mk · true)⟩ := by
  have hfunction : isInside [word "function".toList] = true := by decide
  have hinside : isInside (word "function".toList :: word (nameText table id name).toList :: ts) = true :=
    isInside_append hfunction (isInside_append (inner_nameText table id name).isInside hinner.isInside)
  have hnames : (word (nameText table id name).toList :: (ts ++ [mark '\x7b']) : List Token).filterMap
      Token.name? = nameText table id name :: ns := by
    rw [List.filterMap_cons_some (name?_nameText table id name), List.filterMap_append, hinner.names_eq]
    exact congrArg _ (append_nil ns)
  apply says_of_spells h (by simpa using hinner.newline_notMem)
  rw [ofTokens_head (by simp) hinside, lineNames, if_pos rfl, hnames]
  rfl

theorem says_break (label : Option Nat) : (Line.mk depth (breakText label)).Says
    ⟨.leaves (label.map labelLetters), []⟩ := by
  cases label with
  | none => exact (says_ofList (by decide) (by decide) (by decide)).line
  | some label =>
    have hopen : Closes "break " [word "break".toList] := closes_of_isClosed _ (by decide)
    have hspells : Spells ("break " ++ labelText label ++ ";")
        [word "break".toList, word (labelLetters label), mark ';'] :=
      ((hopen.followed (spells_labelText label)).fixed _ (by decide)).spells
    apply says_of_spells hspells (by simp)
    rfl

/-! ### Whole texts -/

theorem textLines_append (h : Spells a ts) (b : String) :
    textLines (a ++ "\n" ++ b) = textLines a ++ textLines b := by
  have htokens : tokens (a ++ "\n" ++ b) = tokens a ++ mark '\n' :: tokens b := by
    rw [h.tokens_eq, tokens, String.toList_append, h.fixed "\n" (by decide), List.append_assoc]
    rfl
  have hsplit := List.splitOnP_append_cons (p := (· == mark '\n')) (tokens a) (tokens b) (beq_self_eq_true _)
  rw [textLines, htokens, List.splitOn, hsplit, List.filter_append]
  rfl

theorem readText_append {b : String} {rs' : List Reading} (h : Spells a ts)
    (ha : readText a = some rs) (hb : readText b = some rs') :
    readText (a ++ "\n" ++ b) = some (rs ++ rs') := by
  rw [readText] at ha hb
  rw [readText, textLines_append h, List.mapM_append, ha, hb]
  rfl

theorem readText_line (h : Says text r) : readText text = some [r] := by
  obtain ⟨ts, hts, hline, hr⟩ := h
  have hne : ts ≠ [] := by
    rintro rfl
    cases hr
  have hlines : textLines text = [ts] := by
    rw [textLines, hts.tokens_eq, List.splitOn_eq_singleton hline]
    simpa using hne
  rw [readText, hlines, List.mapM_cons, hr]
  rfl

theorem readText_lines {texts : List String} (h : List.Forall₂ Says texts rs) :
    readText ("\n".intercalate texts) = some rs ∧ ∃ ts, Spells ("\n".intercalate texts) ts := by
  induction h with
  | nil => exact ⟨rfl, [], spells_of_isOutside rfl⟩
  | @cons text r texts rs htext h ih =>
    obtain ⟨ts, hts, -⟩ := id htext
    cases texts with
    | nil =>
      cases h
      exact ⟨readText_line htext, ts, hts⟩
    | cons =>
      obtain ⟨hrest, us, hus⟩ := ih
      rw [String.intercalate_cons_cons]
      exact ⟨readText_append hts (readText_line htext) hrest, _, (hts.fixed "\n" (by decide)).followed hus⟩

end JavaScript

end LemonScript
