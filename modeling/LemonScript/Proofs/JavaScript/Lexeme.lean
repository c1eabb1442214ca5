import LemonScript.Proofs.JavaScript.Numeral
import LemonScript.Text.JsonString
import LemonScript.Token.Lexeme
/-!
# The lexemes of a JavaScript expression

An expression is cut into words, numbers, strings and marks. A lexeme is as long as it can be: `++` is one
mark, and the sign behind the `e` of a number belongs to the number. Two texts side by side are cut one
after the other if the second begins with a character that goes on with nothing.
-/

namespace LemonScript

open List (all_eq_true append_assoc append_nil cons_append forall_mem_cons singleton_append)

namespace JavaScript

inductive Operator
  | or
  | and
  | equal
  | notEqual
  | less
  | lessEqual
  | greater
  | greaterEqual
  | add
  | sub
  | mul
  | div
  | mod
  | pow
deriving Repr, DecidableEq

inductive Bracket
  | round
  | square
  | curly
deriving Repr, DecidableEq

inductive Mark
  | opening (b : Bracket)
  | closing (b : Bracket)
  | comma
  | colon
  | dot
  | not
  | operator (op : Operator)
  /-- `+=` and `-=`. -/
  | change (up : Bool)
  /-- `++` and `--`. -/
  | crement (up : Bool)
  | semicolon
deriving Repr, DecidableEq

inductive Lexeme
  | word (letters : List Char)
  | number (letters : List Char)
  /-- A string as it is written between its quotes. -/
  | string (body : List Char)
  | mark (m : Mark)
deriving Repr, DecidableEq

def marks : List (List Char × Mark) :=
  [(['('], .opening .round), ([')'], .closing .round), (['['], .opening .square), ([']'], .closing .square),
   (['\x7b'], .opening .curly), (['\x7d'], .closing .curly), ([','], .comma), ([':'], .colon),
   (['.'], .dot), ([';'], .semicolon), (['!'], .not), (['|', '|'], .operator .or),
   (['&', '&'], .operator .and), (['=', '=', '='], .operator .equal), (['!', '=', '='], .operator .notEqual),
   (['<'], .operator .less), (['<', '='], .operator .lessEqual), (['>'], .operator .greater),
   (['>', '='], .operator .greaterEqual), (['+'], .operator .add), (['-'], .operator .sub),
   (['*'], .operator .mul), (['/'], .operator .div), (['%'], .operator .mod), (['*', '*'], .operator .pow),
   (['+', '='], .change true), (['-', '='], .change false), (['+', '+'], .crement true),
   (['-', '-'], .crement false)]

/-- The punctuators that no expression read here has, and the beginnings of comments. They are cut as a
whole all the same, so that no part of one is taken for a mark. -/
def otherMarks : List (List Char) :=
  ["|", "&", "=", "==", "!=", "=>", "~", "?", "??", "?.", "^", "<<", "<<=", ">>", ">>=", ">>>", ">>>=", "*=",
   "**=", "/=", "%=", "&=", "|=", "^=", "&&=", "||=", "??=", "//", "/*"].map String.toList

def isMark (chars : List Char) : Bool :=
  marks.any (·.1 == chars) || otherMarks.contains chars

inductive ScanState
  | between
  | inWord (letters : List Char)
  | inNumber (letters : List Char)
  | inString (body : List Char)
  | escaped (body : List Char)
  | inMark (chars : List Char)
deriving Repr, DecidableEq

variable {s : ScanState} {c : Char} {ts us : List Lexeme} {cs w letters : List Char} {n : Numeral}
  {text a b : String}
variable {rest : List Char} {s' : ScanState}

namespace ScanState

def start (c : Char) : Option ScanState :=
  if c = ' ' then some between
  else if isDigit c then some (inNumber [c])
  else if isIdentifierChar c then some (inWord [c])
  else if c = '"' then some (inString [])
  else if isMark [c] then some (inMark [c])
  else none

/-- A sign belongs to a number behind its `e`, a letter, a digit and a point always. -/
def numberGoesOn (letters : List Char) (c : Char) : Bool :=
  isIdentifierChar c || c = '.' || letters.getLast? = some 'e' && (c = '+' || c = '-')

def longer (c : Char) : ScanState → Option ScanState
  | inWord letters => if isIdentifierChar c then some (inWord (letters ++ [c])) else none
  | inNumber letters => if numberGoesOn letters c then some (inNumber (letters ++ [c])) else none
  | inMark chars => if isMark (chars ++ [c]) then some (inMark (chars ++ [c])) else none
  | _ => none

/-- The lexeme that ends here. A string may not end before its quote. -/
def finish : ScanState → Option (List Lexeme)
  | between => some []
  | inWord letters => some [.word letters]
  | inNumber letters => if (numeral? letters).isSome then some [.number letters] else none
  | inString _ | escaped _ => none
  | inMark chars => (marks.lookup chars).map fun m => [.mark m]

def step (c : Char) : ScanState → Option (List Lexeme × ScanState)
  | inString body =>
    if c = '"' then some ([.string body], between)
    else if c = '\\' then some ([], escaped body)
    else if c = '\n' || c = '\r' then none
    else some ([], inString (body ++ [c]))
  | escaped body => some ([], inString (body ++ ['\\', c]))
  | s =>
    match s.longer c with
    | some s => some ([], s)
    | none => s.finish.bind fun ts => (start c).map fun s => (ts, s)

end ScanState

def scan : ScanState → List Char → Option (List Lexeme)
  | s, [] => s.finish
  | s, c :: cs => (s.step c).bind fun r => (scan r.2 cs).map (r.1 ++ ·)

def lexemes (text : String) : Option (List Lexeme) := scan .between text.toList

theorem map_append_map (ts us : List Lexeme) (o : Option (List Lexeme)) :
    (o.map (us ++ ·)).map (ts ++ ·) = o.map (ts ++ us ++ ·) := by
  cases o with
  | none => rfl
  | some vs => exact congrArg some (append_assoc ts us vs).symm

/-! ### Where a lexeme ends -/

/-- The characters do not go on with the lexeme. -/
def ScanState.Ends (s : ScanState) (rest : List Char) : Prop := ∀ c ∈ rest.head?, s.longer c = none

theorem ScanState.step_of_longer (hs : s.finish = some ts) (h : s.longer c = none) :
    s.step c = (start c).map fun s => (ts, s) := by
  cases s with
  | inString body | escaped body => cases hs
  | between =>
    cases hs
    rfl
  | inWord =>
    cases hs
    simp only [step, h, finish]
    rfl
  | inNumber letters | inMark chars =>
    simp only [step, h, hs]
    rfl

theorem scan_between_cons (c : Char) (cs : List Char) :
    scan .between (c :: cs) = (ScanState.start c).bind fun s => scan s cs := by
  rw [scan, ScanState.step_of_longer rfl rfl]
  cases ScanState.start c with
  | none => rfl
  | some s => simp

theorem scan_of_ends (hs : s.finish = some ts) (h : s.Ends rest) :
    scan s rest = (scan .between rest).map (ts ++ ·) := by
  cases rest with
  | nil =>
    rw [scan, scan, hs]
    simp [ScanState.finish]
  | cons c cs =>
    rw [scan_between_cons, scan, ScanState.step_of_longer hs (h c rfl)]
    cases ScanState.start c with
    | none => rfl
    | some s => simp

/-- Where the lexer is behind the characters, and what it has cut. -/
def ScanState.run : ScanState → List Char → Option (List Lexeme × ScanState)
  | s, [] => some ([], s)
  | s, c :: cs => (s.step c).bind fun r => (r.2.run cs).map fun r' => (r.1 ++ r'.1, r'.2)

theorem scan_append (h : s.run cs = some (ts, s')) (rest : List Char) :
    scan s (cs ++ rest) = (scan s' rest).map (ts ++ ·) := by
  induction cs generalizing s ts with
  | nil =>
    cases h
    simp
  | cons c cs ih =>
    rw [ScanState.run] at h
    obtain ⟨⟨us, t⟩, hstep, h⟩ := Option.bind_eq_some_iff.mp h
    obtain ⟨⟨vs, t'⟩, hrun, heq⟩ := Option.map_eq_some_iff.mp h
    cases heq
    rw [cons_append, scan, hstep, Option.bind_some, ih hrun, map_append_map]

theorem run_cons (h : s.step c = some ([], s')) (cs : List Char) : s.run (c :: cs) = s'.run cs := by
  rw [ScanState.run, h, Option.bind_some]
  cases s'.run cs with
  | none | some => rfl

/-! ### Words, numbers and strings -/

theorem run_inWord (letters : List Char) (h : ∀ c ∈ w, isIdentifierChar c) :
    (ScanState.inWord letters).run w = some ([], .inWord (letters ++ w)) := by
  induction w generalizing letters with
  | nil => rw [ScanState.run, append_nil]
  | cons c w ih =>
    rw [forall_mem_cons] at h
    have hstep : (ScanState.inWord letters).step c = some ([], .inWord (letters ++ [c])) := by
      simp only [ScanState.step, ScanState.longer, if_pos h.1]
    rw [run_cons hstep, ih _ h.2, append_assoc, singleton_append]

structure IsWord (w : List Char) : Prop where
  first : ∃ c ∈ w.head?, isDigit c = false
  letters : ∀ c ∈ w, isIdentifierChar c = true

theorem isWord_of_all (h : (w.head?.any (!isDigit ·) && w.all isIdentifierChar)) : IsWord w := by
  rw [Bool.and_eq_true, all_eq_true] at h
  refine ⟨?_, h.2⟩
  cases w with
  | nil => cases h.1
  | cons c w => exact ⟨c, rfl, by simpa using h.1⟩

theorem run_word (h : IsWord w) : ScanState.between.run w = some ([], .inWord w) := by
  obtain ⟨⟨c, hc, hdigit⟩, hletters⟩ := h
  cases w with
  | nil => cases hc
  | cons d w =>
    cases hc
    rw [forall_mem_cons] at hletters
    have hblank : c ≠ ' ' := by
      rintro rfl
      exact absurd hletters.1 (by decide)
    have hstart : ScanState.start c = some (.inWord [c]) := by
      rw [ScanState.start, if_neg hblank, if_neg (by rw [hdigit]; decide), if_pos hletters.1]
    have hstep : ScanState.between.step c = some ([], .inWord [c]) := by
      rw [ScanState.step_of_longer rfl rfl, hstart, Option.map_some]
    rw [run_cons hstep, run_inWord [c] hletters.2, singleton_append]

def NumberGoesOn : List Char → List Char → Prop
  | _, [] => True
  | letters, c :: cs => ScanState.numberGoesOn letters c = true ∧ NumberGoesOn (letters ++ [c]) cs

theorem run_inNumber (h : NumberGoesOn letters cs) :
    (ScanState.inNumber letters).run cs = some ([], .inNumber (letters ++ cs)) := by
  induction cs generalizing letters with
  | nil => rw [ScanState.run, append_nil]
  | cons c cs ih =>
    have hstep : (ScanState.inNumber letters).step c = some ([], .inNumber (letters ++ [c])) := by
      simp only [ScanState.step, ScanState.longer, if_pos h.1]
    rw [run_cons hstep, ih h.2, append_assoc, singleton_append]

theorem NumberGoesOn.append {a b : List Char} (ha : NumberGoesOn letters a)
    (hb : NumberGoesOn (letters ++ a) b) : NumberGoesOn letters (a ++ b) := by
  induction a generalizing letters with
  | nil => rwa [append_nil] at hb
  | cons c a ih => exact ⟨ha.1, ih ha.2 (by rwa [append_assoc])⟩

theorem isIdentifierChar_of_isDigit (h : isDigit c) : isIdentifierChar c := by
  have hcodes : ∀ n < 0x3A, 0x30 ≤ n → inRanges n decimalDigitRanges = true := by decide +kernel
  simp only [isDigit, Bool.and_eq_true, decide_eq_true_eq] at h
  have hlow : 0x30 ≤ c.toNat := h.1
  have hhigh : c.toNat ≤ 0x39 := h.2
  have hdecimal : isDecimalDigit c = true := hcodes c.toNat (by omega) hlow
  simp [isIdentifierChar, isWordChar, hdecimal]

theorem numberGoesOn_plain (h : ∀ c ∈ cs, isIdentifierChar c ∨ c = '.') (letters : List Char) :
    NumberGoesOn letters cs := by
  induction cs generalizing letters with
  | nil => trivial
  | cons c cs ih =>
    rw [forall_mem_cons] at h
    refine ⟨?_, ih h.2 _⟩
    rcases h.1 with hc | rfl
    · simp [ScanState.numberGoesOn, hc]
    · simp [ScanState.numberGoesOn]

theorem numberGoesOn_digits (h : cs.all isDigit) (letters : List Char) : NumberGoesOn letters cs :=
  numberGoesOn_plain (fun c hc => .inl (isIdentifierChar_of_isDigit (all_eq_true.mp h c hc))) letters

theorem numberGoesOn_exponent {tail : List Char} {e : Int} (h : exponent? tail = some e) (letters : List Char) :
    NumberGoesOn letters tail := by
  have hmark : ScanState.numberGoesOn letters 'e' = true := by
    rw [ScanState.numberGoesOn, show isIdentifierChar 'e' = true from by decide]
    rfl
  unfold exponent? at h
  split at h
  · trivial
  · split at h
    · next hdigits =>
      rw [Bool.and_eq_true] at hdigits
      exact ⟨hmark, by simp [ScanState.numberGoesOn], numberGoesOn_digits hdigits.2 _⟩
    · cases h
  · split at h
    · next hdigits =>
      rw [Bool.and_eq_true] at hdigits
      exact ⟨hmark, by simp [ScanState.numberGoesOn], numberGoesOn_digits hdigits.2 _⟩
    · cases h
  · cases h

theorem numberGoesOn_dropWhile (h : numeral? letters = some n) (before : List Char) :
    NumberGoesOn before (letters.dropWhile isDigit) := by
  simp only [numeral?] at h
  split at h
  · split at h
    · next heq =>
      rw [heq]
      exact numberGoesOn_plain (by simp [show isIdentifierChar 'n' = true from by decide]) before
    · next more heq =>
      rw [heq]
      obtain ⟨e, he, -⟩ := Option.map_eq_some_iff.mp h
      refine ⟨by simp [ScanState.numberGoesOn], ?_⟩
      rw [← List.takeWhile_append_dropWhile (p := isDigit) (l := more)]
      exact (numberGoesOn_digits List.all_takeWhile _).append (numberGoesOn_exponent he _)
    · obtain ⟨e, he, -⟩ := Option.map_eq_some_iff.mp h
      exact numberGoesOn_exponent he before
  · cases h

theorem run_numeral (h : numeral? letters = some n) :
    ScanState.between.run letters = some ([], .inNumber letters) := by
  have hrest := numberGoesOn_dropWhile h
  have hwhole : isWhole (letters.takeWhile isDigit) = true := by
    by_contra hnot
    simp only [numeral?, hnot] at h
    cases h
  have hall : (letters.takeWhile isDigit).all isDigit = true := List.all_takeWhile
  rw [← List.takeWhile_append_dropWhile (p := isDigit) (l := letters)]
  generalize letters.takeWhile isDigit = whole at hwhole hall
  cases whole with
  | nil => cases hwhole
  | cons d ds =>
    rw [List.all_cons, Bool.and_eq_true] at hall
    have hblank : d ≠ ' ' := by
      rintro rfl
      exact absurd hall.1 (by decide)
    have hstep : ScanState.between.step d = some ([], .inNumber [d]) := by
      rw [ScanState.step_of_longer rfl rfl, ScanState.start, if_neg hblank, if_pos hall.1]
      rfl
    rw [cons_append, run_cons hstep, run_inNumber ((numberGoesOn_digits hall.2 _).append (hrest _))]
    rfl

/-! ### Strings -/

def IsPlain (c : Char) : Prop := c ≠ '"' ∧ c ≠ '\\' ∧ c ≠ '\n' ∧ c ≠ '\r'

theorem run_inString_plain (h : ∀ c ∈ cs, IsPlain c) (body rest : List Char) :
    (ScanState.inString body).run (cs ++ rest) = (ScanState.inString (body ++ cs)).run rest := by
  induction cs generalizing body with
  | nil => rw [List.nil_append, append_nil]
  | cons c cs ih =>
    rw [forall_mem_cons] at h
    obtain ⟨⟨hquote, hslash, hline, hreturn⟩, hcs⟩ := h
    have hstep : (ScanState.inString body).step c = some ([], .inString (body ++ [c])) := by
      simp [ScanState.step, hquote, hslash, hline, hreturn]
    rw [cons_append, run_cons hstep, ih hcs, append_assoc, singleton_append]

theorem run_escape (c : Char) (body rest : List Char) :
    (ScanState.inString body).run ('\\' :: c :: rest) = (ScanState.inString (body ++ ['\\', c])).run rest := by
  have hslash : (ScanState.inString body).step '\\' = some ([], .escaped body) := by
    simp [ScanState.step]
  rw [run_cons hslash, run_cons rfl]

theorem run_jsonChar (c : Char) (body rest : List Char) :
    (ScanState.inString body).run (jsonChar .plain c ++ rest) =
      (ScanState.inString (body ++ jsonChar .plain c)).run rest := by
  unfold jsonChar
  split
  iterate 7 exact run_escape _ _ _
  next hquote hslash hline hreturn _ _ _ =>
  dsimp only
  split
  · rw [cons_append, cons_append, run_escape, run_inString_plain, append_assoc]
    · rfl
    · intro d hd
      have hdigit := isHexDigit_of_mem_hexText hd
      refine ⟨?_, ?_, ?_, ?_⟩
      all_goals
        rintro rfl
        exact absurd hdigit (by decide)
  · apply run_inString_plain
    intro d hd
    rw [List.mem_singleton.mp hd]
    exact ⟨hquote, hslash, hline, hreturn⟩

theorem run_jsonString (text : String) : ScanState.between.run (jsonString .plain text).toList =
      some ([.string (text.toList.flatMap (jsonChar .plain))], .between) := by
  have hbody : ∀ cs body : List Char, (ScanState.inString body).run (cs.flatMap (jsonChar .plain) ++ ['"']) =
      some ([.string (body ++ cs.flatMap (jsonChar .plain))], .between) := by
    intro cs
    induction cs with
    | nil =>
      intro body
      rw [List.flatMap_nil, append_nil]
      rfl
    | cons c cs ih =>
      intro body
      rw [List.flatMap_cons, append_assoc, run_jsonChar, ih, append_assoc]
  have hopen : ScanState.between.step '"' = some ([], .inString []) := by decide
  rw [jsonString, String.toList_ofList, run_cons hopen, hbody, List.nil_append]

/-! ### Texts side by side -/

def stops : List Char := [' ', ',', '(', ')', '[', ']', ':', ';', '\x7d']

def isStop (c : Char) : Bool := stops.contains c

def Stopped (rest : List Char) : Prop := ∀ c ∈ rest.head?, isStop c = true

theorem stopped_nil : Stopped [] := by simp [Stopped]

theorem stopped_cons : Stopped (c :: rest) ↔ isStop c := by
  simp [Stopped]

/-- The text is cut into the lexemes, whatever follows it. -/
def Cuts (text : String) (ts : List Lexeme) : Prop :=
  ∀ rest, scan .between (text.toList ++ rest) = (scan .between rest).map (ts ++ ·)

def Scans (text : String) (ts : List Lexeme) : Prop :=
  ∀ rest, Stopped rest → scan .between (text.toList ++ rest) = (scan .between rest).map (ts ++ ·)

theorem Cuts.scans (h : Cuts text ts) : Scans text ts :=
  fun rest _ => h rest

theorem Scans.lexemes_eq (h : Scans text ts) : lexemes text = some ts := by
  have hnil := h [] stopped_nil
  rw [append_nil] at hnil
  rw [lexemes, hnil]
  simp [scan, ScanState.finish]

theorem Cuts.followed (ha : Cuts a ts) (hb : Scans b us) : Scans (a ++ b) (ts ++ us) := by
  intro rest hrest
  rw [String.toList_append, append_assoc, ha, hb rest hrest, map_append_map]

def opensWithStop (text : String) : Bool := text.toList.head?.any isStop

theorem Scans.cut (ha : Scans a ts) (hb : Cuts b us) (hstop : opensWithStop b) :
    Cuts (a ++ b) (ts ++ us) := by
  intro rest
  have hstopped : Stopped (b.toList ++ rest) := by
    rw [opensWithStop] at hstop
    cases hcs : b.toList with
    | nil =>
      rw [hcs] at hstop
      cases hstop
    | cons =>
      rw [hcs] at hstop
      exact stopped_cons.mpr hstop
  rw [String.toList_append, append_assoc, ha _ hstopped, hb rest, map_append_map]

/-! ### Single lexemes and fixed texts -/

theorem cuts_of_run (h : ScanState.between.run text.toList = some (ts, .between)) : Cuts text ts :=
  scan_append h

theorem scans_of_run (h : ScanState.between.run text.toList = some (ts, s))
    (hs : s.finish = some us) (hstop : ∀ c, isStop c → s.longer c = none) :
    Scans text (ts ++ us) := by
  intro rest hrest
  rw [scan_append h, scan_of_ends hs fun c hc => hstop c (hrest c hc), map_append_map]

theorem isIdentifierChar_of_isStop (h : isStop c) : isIdentifierChar c = false := by
  have hstops : stops.all (fun c => !isIdentifierChar c) = true := by decide
  simpa using all_eq_true.mp hstops c (List.contains_iff_mem.mp h)

theorem numberGoesOn_of_isStop (h : isStop c) (letters : List Char) :
    ScanState.numberGoesOn letters c = false := by
  have hstops : stops.all (fun c => c != '.' && c != '+' && c != '-') = true := by decide
  have hc := all_eq_true.mp hstops c (List.contains_iff_mem.mp h)
  simp only [Bool.and_eq_true, bne_iff_ne] at hc
  simp [ScanState.numberGoesOn, isIdentifierChar_of_isStop h, hc]

theorem scans_of_run_word (h : ScanState.between.run text.toList = some (ts, .inWord w)) :
    Scans text (ts ++ [.word w]) :=
  scans_of_run h rfl fun c hc => by simp [ScanState.longer, isIdentifierChar_of_isStop hc]

theorem cuts_of_run_word (ha : ScanState.between.run a.toList = some (ts, .inWord w))
    (hb : Cuts b us) (hhead : b.toList.head?.any (!isIdentifierChar ·)) :
    Cuts (a ++ b) (ts ++ [.word w] ++ us) := by
  intro rest
  have hends : (ScanState.inWord w).Ends (b.toList ++ rest) := by
    intro c hc
    cases hcs : b.toList with
    | nil =>
      rw [hcs] at hhead
      cases hhead
    | cons =>
      rw [hcs] at hhead hc
      cases hc
      have hword : isIdentifierChar c = false := by simpa using hhead
      simp [ScanState.longer, hword]
  rw [String.toList_append, append_assoc, scan_append ha, scan_of_ends rfl hends, hb rest, map_append_map,
    map_append_map, append_assoc]

theorem scans_number (h : numeral? text.toList = some n) : Scans text [.number text.toList] :=
  scans_of_run (run_numeral h) (by simp [ScanState.finish, h]) fun c hc => by
    simp [ScanState.longer, numberGoesOn_of_isStop hc]

theorem cuts_string (text : String) :
    Cuts (jsonString .plain text) [.string (text.toList.flatMap (jsonChar .plain))] :=
  cuts_of_run (run_jsonString text)

def isWholeMark (chars : List Char) : Bool :=
  (marks.map (·.1) ++ otherMarks).all fun m => !chars.isPrefixOf m || m.length ≤ chars.length

theorem isMark_of_isWholeMark {chars : List Char} (h : isWholeMark chars) (c : Char) :
    isMark (chars ++ [c]) = false := by
  rw [isWholeMark, all_eq_true] at h
  rw [← Bool.not_eq_true]
  intro hmark
  have hmem : chars ++ [c] ∈ marks.map (·.1) ++ otherMarks := by
    simpa [isMark, List.mem_append] using hmark
  have hopens : chars.isPrefixOf (chars ++ [c]) = true := by
    rw [ List.isPrefixOf_iff_prefix]
    exact List.prefix_append chars [c]
  have hlength := h _ hmem
  simp [hopens] at hlength

theorem isMark_digit (h : isDigit c) (chars : List Char) : isMark (chars ++ [c]) = false := by
  have hmarks : (marks.map (·.1) ++ otherMarks).all (fun m => m.all fun c => !isDigit c) = true := by decide
  rw [← Bool.not_eq_true]
  intro hmark
  have hmem : chars ++ [c] ∈ marks.map (·.1) ++ otherMarks := by
    simpa [isMark, List.mem_append] using hmark
  have hall := all_eq_true.mp (all_eq_true.mp hmarks _ hmem) c (by simp)
  rw [h] at hall
  cases hall

theorem Scans.minus (h : Scans a ts) (hdigit : a.toList.head?.any isDigit) :
    Scans ("-" ++ a) (.mark (.operator .sub) :: ts) := by
  intro rest hrest
  have hrun : ScanState.between.run "-".toList = some ([], .inMark ['-']) := by decide
  have hends : (ScanState.inMark ['-']).Ends (a.toList ++ rest) := by
    intro c hc
    cases hcs : a.toList with
    | nil =>
      rw [hcs] at hdigit
      cases hdigit
    | cons =>
      rw [hcs] at hdigit hc
      cases hc
      simp only [ScanState.longer, isMark_digit (show isDigit c = true from hdigit)]
      rfl
  rw [String.toList_append, append_assoc, scan_append hrun, scan_of_ends rfl hends, h rest hrest,
    map_append_map, map_append_map]
  rfl

/-- The lexemes of a fixed text that ends between lexemes or in a mark that cannot get longer. -/
def fixedLexemes? (text : String) : Option (List Lexeme) :=
  match ScanState.between.run text.toList with
  | some (ts, .between) => some ts
  | some (ts, .inMark chars) => if isWholeMark chars then (ScanState.inMark chars).finish.map (ts ++ ·) else none
  | _ => none

theorem cuts_fixed (text : String) (h : fixedLexemes? text = some ts) : Cuts text ts := by
  unfold fixedLexemes? at h
  split at h
  · next hrun =>
    cases h
    exact cuts_of_run hrun
  · next us chars hrun =>
    split at h
    · next hwhole =>
      obtain ⟨vs, hvs, rfl⟩ := Option.map_eq_some_iff.mp h
      intro rest
      have hends : (ScanState.inMark chars).Ends rest := by
        intro c hc
        simp [ScanState.longer, isMark_of_isWholeMark hwhole]
      rw [scan_append hrun, scan_of_ends hvs hends, map_append_map]
    · cases h
  · cases h

example : lexemes "(x_1 - -5n) ** 1.5e-07" = some
    [.mark (.opening .round), .word "x_1".toList, .mark (.operator .sub), .mark (.operator .sub),
      .number "5n".toList, .mark (.closing .round), .mark (.operator .pow), .number "1.5e-07".toList] := by
  decide +kernel

end JavaScript

end LemonScript
