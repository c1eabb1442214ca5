import LemonScript.Proofs.JavaScript.Lexeme
/-!
# Reading a JavaScript expression

The lexemes of an expression are read from left to right. What waits for an operand is kept on a stack: the
signs and operators whose right operand is not yet there, and the brackets that are open. An operator first
completes what stands on the stack and binds at least as tightly; a sign binds tighter than every operator,
and `**` may not have a sign directly before its left operand. A call or an index belongs to the operand
right before it.
-/

namespace LemonScript

open List (append_assoc cons_append nil_append singleton_append)

namespace JavaScript

inductive Sign
  | minus
  | plus
  | not
  | typeof
deriving Repr, DecidableEq

/-- An expression as JavaScript groups it. Parentheses are kept. -/
inductive Term
  | word (letters : List Char)
  | number (letters : List Char)
  | string (body : List Char)
  | group (inner : Term)
  | signed (sign : Sign) (operand : Term)
  | operation (left : Term) (op : Operator) (right : Term)
  | change (target : Term) (up : Bool) (source : Term)
  | crement (target : Term) (up : Bool)
  | call (callee : Term) (args : List Term)
  | index (base key : Term)
  | field (base : Term) (name : List Char)
  | array (elements : List Term)
  | object (entries : List (Term × Term))

def Operator.precedence : Operator → Nat
  | or => 1
  | and => 2
  | equal | notEqual => 3
  | less | lessEqual | greater | greaterEqual => 4
  | add | sub => 5
  | mul | div | mod => 6
  | pow => 7

def reservedWords : List (List Char) :=
  ["await", "break", "case", "catch", "class", "const", "continue", "debugger", "default", "delete", "do",
   "else", "enum", "export", "extends", "finally", "for", "function", "if", "import", "in", "instanceof",
   "let", "new", "return", "static", "super", "switch", "throw", "try", "var", "void", "while", "with",
   "yield"].map String.toList

/-- What waits for an operand. -/
inductive Pending
  | sign (s : Sign)
  | operator (left : Term) (op : Operator)
  | change (target : Term) (up : Bool)
  | group
  | arguments (callee : Term) (done : List Term)
  | elements (done : List Term)
  | index (base : Term)
  | key (done : List (Term × Term))
  | entry (done : List (Term × Term)) (key : Term)

inductive ReadState
  | operand
  /-- An operand, or the end of an empty list. -/
  | opened
  /-- Something behind the operand. -/
  | value (t : Term)
  | field (t : Term)
  | entry (done : List (Term × Term))
  /-- The colon behind a key. -/
  | key (done : List (Term × Term)) (key : Term)

def complete (precedence : Nat) : Term → List Pending → Term × List Pending
  | t, .sign s :: σ => complete precedence (.signed s t) σ
  | t, .operator left op :: σ =>
    if precedence ≤ op.precedence then complete precedence (.operation left op t) σ
    else (t, .operator left op :: σ)
  | t, .change target up :: σ =>
    if precedence = 0 then complete precedence (.change target up t) σ else (t, .change target up :: σ)
  | t, σ => (t, σ)

def Term.isTarget : Term → Bool
  | word _ | index _ _ | field _ _ => true
  | group t => t.isTarget
  | _ => false

def Term.isCrement : Term → Bool
  | crement _ _ => true
  | _ => false

def atRest : List Pending → Bool
  | .sign _ :: _ | .operator _ _ :: _ | .change _ _ :: _ => false
  | _ => true

def afterSign : List Pending → Bool
  | .sign _ :: _ => true
  | _ => false

def operandStep (σ : List Pending) : Lexeme → Option (ReadState × List Pending)
  | .word letters =>
    if letters = "typeof".toList then some (.operand, .sign .typeof :: σ)
    else if reservedWords.contains letters then none
    else some (.value (.word letters), σ)
  | .number letters => some (.value (.number letters), σ)
  | .string body => some (.value (.string body), σ)
  | .mark (.opening .round) => some (.operand, .group :: σ)
  | .mark (.opening .square) => some (.opened, .elements [] :: σ)
  | .mark (.opening .curly) => some (.entry [], σ)
  | .mark .not => some (.operand, .sign .not :: σ)
  | .mark (.operator .sub) => some (.operand, .sign .minus :: σ)
  | .mark (.operator .add) => some (.operand, .sign .plus :: σ)
  | _ => none

def openedStep : List Pending → Lexeme → Option (ReadState × List Pending)
  | .arguments callee [] :: σ, .mark (.closing .round) => some (.value (.call callee []), σ)
  | .elements [] :: σ, .mark (.closing .square) => some (.value (.array []), σ)
  | σ, l => operandStep σ l

def close (m : Mark) (t : Term) : List Pending → Option (ReadState × List Pending)
  | .group :: σ => if m = .closing .round then some (.value (.group t), σ) else none
  | .arguments callee done :: σ =>
    if m = .closing .round then some (.value (.call callee (done ++ [t])), σ)
    else if m = .comma then some (.operand, .arguments callee (done ++ [t]) :: σ)
    else none
  | .elements done :: σ =>
    if m = .closing .square then some (.value (.array (done ++ [t])), σ)
    else if m = .comma then some (.operand, .elements (done ++ [t]) :: σ)
    else none
  | .index base :: σ => if m = .closing .square then some (.value (.index base t), σ) else none
  | .key done :: σ => if m = .closing .square then some (.key done t, σ) else none
  | .entry done key :: σ =>
    if m = .closing .curly then some (.value (.object (done ++ [(key, t)])), σ)
    else if m = .comma then some (.entry (done ++ [(key, t)]), σ)
    else none
  | _ => none

def valueStep (t : Term) (σ : List Pending) : Lexeme → Option (ReadState × List Pending)
  | .mark (.opening .round) => if t.isCrement then none else some (.opened, .arguments t [] :: σ)
  | .mark (.opening .square) => if t.isCrement then none else some (.operand, .index t :: σ)
  | .mark .dot => if t.isCrement then none else some (.field t, σ)
  | .mark (.crement up) => if t.isTarget then some (.value (.crement t up), σ) else none
  | .mark (.operator .pow) => if afterSign σ then none else some (.operand, .operator t .pow :: σ)
  | .mark (.operator op) =>
    let r := complete op.precedence t σ
    some (.operand, .operator r.1 op :: r.2)
  | .mark (.change up) => if t.isTarget && atRest σ then some (.operand, .change t up :: σ) else none
  | .mark m =>
    let r := complete 0 t σ
    close m r.1 r.2
  | _ => none

def readStep : ReadState → List Pending → Lexeme → Option (ReadState × List Pending)
  | .operand, σ, l => operandStep σ l
  | .opened, σ, l => openedStep σ l
  | .value t, σ, l => valueStep t σ l
  | .field t, σ, .word letters => some (.value (.field t letters), σ)
  | .entry done, σ, .mark (.opening .square) => some (.operand, .key done :: σ)
  | .entry done, σ, .mark (.closing .curly) => some (.value (.object done), σ)
  | .key done key, σ, .mark .colon => some (.operand, .entry done key :: σ)
  | _, _, _ => none

def finished : ReadState → List Pending → Option Term
  | .value t, σ => if (complete 0 t σ).2.isEmpty then some (complete 0 t σ).1 else none
  | _, _ => none

def read : ReadState → List Pending → List Lexeme → Option Term
  | s, σ, [] => finished s σ
  | s, σ, l :: ls => (readStep s σ l).bind fun r => read r.1 r.2 ls

def Term.ofText? (text : String) : Option Term := (lexemes text).bind (read .operand [])

-- the equations of the reader are put up once, before the proofs that share them
attribute [local simp] read readStep complete operandStep valueStep close openedStep finished

variable {σ : List Pending} {ts ls rs : List Lexeme} {t r : Term} {l : List Term}

theorem read_cons {s s' : ReadState} {σ' : List Pending} {l : Lexeme}
    (h : readStep s σ l = some (s', σ')) (ls : List Lexeme) :
    read s σ (l :: ls) = read s' σ' ls := by
  rw [read, h, Option.bind_some]

/-! ### Completing what is pending -/

theorem complete_of_atRest (h : atRest σ) (p : Nat) (t : Term) : complete p t σ = (t, σ) := by
  cases σ with
  | nil => rfl
  | cons f σ =>
    cases f with
    | sign _ | operator _ _ | change _ _ => cases h
    | _ => rfl

theorem afterSign_of_atRest (h : atRest σ) : afterSign σ = false := by
  cases σ with
  | nil => rfl
  | cons f σ =>
    cases f with
    | sign _ => cases h
    | _ => rfl

def Term.under (core : Term) (signs : List Sign) : Term := signs.foldl (fun t s => .signed s t) core

theorem complete_signs (p : Nat) (core : Term) (signs : List Sign) (σ : List Pending) :
    complete p core (signs.map .sign ++ σ) = complete p (core.under signs) σ := by
  induction signs generalizing core with
  | nil => rfl
  | cons s signs ih => exact ih (.signed s core)

/-! ### What lexemes are read as -/

def Term.opensWithBrace : Term → Bool
  | object _ => true
  | operation first _ _ | change first _ _ | crement first _ | call first _ | index first _ | field first _ =>
    first.opensWithBrace
  | _ => false

attribute [local simp] Term.opensWithBrace

/-- The lexemes begin as the expression does, and not with a closing bracket, so that they are no empty list. -/
def Begins (ts : List Lexeme) (t : Term) : Prop :=
  ∃ l ls, ts = l :: ls ∧ (∀ b, l ≠ .mark (.closing b)) ∧ (l = .mark (.opening .curly) ↔ t.opensWithBrace = true)

theorem Begins.append {u : Term} (h : Begins ts t) (hu : u.opensWithBrace = t.opensWithBrace)
    (us : List Lexeme) : Begins (ts ++ us) u := by
  obtain ⟨l, ls, rfl, hl, hbrace⟩ := h
  exact ⟨l, ls ++ us, rfl, hl, hu ▸ hbrace⟩

theorem read_opened (h : Begins ts t) (σ : List Pending) (rest : List Lexeme) :
    read .opened σ (ts ++ rest) = read .operand σ (ts ++ rest) := by
  obtain ⟨l, ls, rfl, hl, -⟩ := h
  have hstep : readStep .opened σ l = readStep .operand σ l := by
    simp only [readStep]
    unfold openedStep
    split
    · exact absurd rfl (hl .round)
    · exact absurd rfl (hl .square)
    · rfl
  rw [cons_append, read, read, hstep]

/-- An operand that a call, an index or `**` may follow. -/
structure Tight (ts : List Lexeme) (t : Term) : Prop where
  begins : Begins ts t
  base : t.isCrement = false
  read_append : ∀ σ rest, read .operand σ (ts ++ rest) = read (.value t) σ rest

/-- An operand of an operator: signs may stand before it. -/
structure Loose (ts : List Lexeme) (t : Term) : Prop where
  begins : Begins ts t
  read_append : ∃ core signs, core.under signs = t ∧
    ∀ σ rest, read .operand σ (ts ++ rest) = read (.value core) (signs.map .sign ++ σ) rest

/-- A whole expression, between brackets and commas. -/
structure Whole (ts : List Lexeme) (t : Term) : Prop where
  begins : Begins ts t
  read_append : ∀ σ, atRest σ = true → ∃ core σ', complete 0 core σ' = (t, σ) ∧
    ∀ rest, read .operand σ (ts ++ rest) = read (.value core) σ' rest

theorem Tight.loose (h : Tight ts t) : Loose ts t :=
  ⟨h.begins, t, [], rfl, h.read_append⟩

theorem Loose.whole (h : Loose ts t) : Whole ts t := by
  obtain ⟨hbegins, core, signs, rfl, hread⟩ := h
  refine ⟨hbegins, fun σ hσ => ⟨core, signs.map .sign ++ σ, ?_, hread σ⟩⟩
  rw [complete_signs, complete_of_atRest hσ]

theorem Tight.whole (h : Tight ts t) : Whole ts t := h.loose.whole

theorem Whole.read_eq (h : Whole ts t) : read .operand [] ts = some t := by
  obtain ⟨core, σ, hcomplete, hread⟩ := h.read_append [] rfl
  have hall := hread []
  rw [List.append_nil] at hall
  rw [hall, read, finished, hcomplete]
  rfl

/-! ### Single lexemes -/

theorem tight_word {letters : List Char} (htypeof : letters ≠ "typeof".toList)
    (hreserved : reservedWords.contains letters = false) : Tight [.word letters] (.word letters) := by
  refine ⟨⟨_, _, rfl, by simp, by simp [Term.opensWithBrace]⟩, rfl, fun σ rest => read_cons ?_ rest⟩
  simp only [readStep, operandStep, if_neg htypeof, hreserved]
  rfl

theorem tight_number (letters : List Char) : Tight [.number letters] (.number letters) :=
  ⟨⟨_, _, rfl, by simp, by simp [Term.opensWithBrace]⟩, rfl, fun _ rest => read_cons rfl rest⟩

theorem tight_string (body : List Char) : Tight [.string body] (.string body) :=
  ⟨⟨_, _, rfl, by simp, by simp [Term.opensWithBrace]⟩, rfl, fun _ rest => read_cons rfl rest⟩

/-! ### Signs and operators -/

def Sign.lexeme : Sign → Lexeme
  | minus => .mark (.operator .sub)
  | plus => .mark (.operator .add)
  | not => .mark .not
  | typeof => .word "typeof".toList

theorem Loose.signed (h : Loose ts t) (s : Sign) : Loose (s.lexeme :: ts) (.signed s t) := by
  obtain ⟨hbegins, core, signs, rfl, hread⟩ := h
  have hfirst : Begins (s.lexeme :: ts) (.signed s (core.under signs)) :=
    ⟨_, _, rfl, by cases s <;> simp [Sign.lexeme], by cases s <;> simp [Sign.lexeme, Term.opensWithBrace]⟩
  refine ⟨hfirst, core, signs ++ [s], ?_, fun σ rest => ?_⟩
  · rw [Term.under, List.foldl_append]
    rfl
  · have hstep : readStep .operand σ s.lexeme = some (.operand, .sign s :: σ) := by cases s <;> rfl
    rw [cons_append, read_cons hstep, hread, List.map_append, append_assoc]
    rfl

theorem Loose.operation {l : Term} (hl : Loose ls l) (hr : Loose rs r) {op : Operator}
    (hop : op ≠ .pow) : Whole (ls ++ .mark (.operator op) :: rs) (.operation l op r) := by
  obtain ⟨hbegins, core, signs, rfl, hleft⟩ := hl
  obtain ⟨-, core', signs', rfl, hright⟩ := hr
  refine ⟨hbegins.append rfl _, fun σ hσ => ⟨core', signs'.map .sign ++ .operator (core.under signs) op :: σ, ?_, ?_⟩⟩
  · rw [complete_signs]
    simp only [complete, Nat.zero_le, if_true, complete_of_atRest hσ]
  · intro rest
    have hstep : readStep (.value core) (signs.map .sign ++ σ) (.mark (.operator op)) =
        some (.operand, .operator (core.under signs) op :: σ) := by
      have hcomplete := complete_signs op.precedence core signs σ
      rw [complete_of_atRest hσ] at hcomplete
      cases op with
      | pow => exact absurd rfl hop
      | _ => simp only [readStep, valueStep, hcomplete]
    rw [append_assoc, hleft, cons_append, read_cons hstep, hright]

theorem Tight.power {l : Term} (hl : Tight ls l) (hr : Loose rs r) :
    Whole (ls ++ .mark (.operator .pow) :: rs) (.operation l .pow r) := by
  obtain ⟨-, core, signs, rfl, hright⟩ := hr
  refine ⟨hl.begins.append rfl _, fun σ hσ => ⟨core, signs.map .sign ++ .operator l .pow :: σ, ?_, ?_⟩⟩
  · rw [complete_signs]
    simp only [complete, Nat.zero_le, if_true, complete_of_atRest hσ]
  · intro rest
    have hstep : readStep (.value l) σ (.mark (.operator .pow)) = some (.operand, .operator l .pow :: σ) := by
      simp only [readStep, valueStep, afterSign_of_atRest hσ]
      rfl
    rw [append_assoc, hl.read_append, cons_append, read_cons hstep, hright]

theorem Tight.change {l : Term} (hl : Tight ls l) (htarget : l.isTarget) (hr : Loose rs r)
    (up : Bool) : Whole (ls ++ .mark (.change up) :: rs) (.change l up r) := by
  obtain ⟨-, core, signs, rfl, hright⟩ := hr
  refine ⟨hl.begins.append rfl _, fun σ hσ => ⟨core, signs.map .sign ++ .change l up :: σ, ?_, ?_⟩⟩
  · rw [complete_signs]
    simp only [complete, if_true, complete_of_atRest hσ]
  · intro rest
    have hstep : readStep (.value l) σ (.mark (.change up)) = some (.operand, .change l up :: σ) := by
      simp only [readStep, valueStep, htarget, hσ, Bool.and_self, if_true]
    rw [append_assoc, hl.read_append, cons_append, read_cons hstep, hright]

theorem Tight.crement (h : Tight ts t) (htarget : t.isTarget) (up : Bool) :
    Whole (ts ++ [.mark (.crement up)]) (.crement t up) := by
  refine ⟨h.begins.append rfl _, fun σ hσ => ⟨.crement t up, σ, complete_of_atRest hσ _ _, fun rest => ?_⟩⟩
  have hstep : readStep (.value t) σ (.mark (.crement up)) = some (.value (.crement t up), σ) := by
    simp only [readStep, valueStep, htarget, if_true]
  rw [append_assoc, h.read_append, singleton_append, read_cons hstep]

/-! ### Brackets -/

def Mark.isEnd : Mark → Bool
  | closing _ | comma => true
  | _ => false

/-- An expression inside a bracket is read up to its end. -/
theorem Whole.read_end (h : Whole ts t) {σ' : List Pending} {s : ReadState} (hσ : atRest σ)
    {m : Mark} (hm : m.isEnd) (hclose : close m t σ = some (s, σ')) (rest : List Lexeme) :
    read .operand σ (ts ++ .mark m :: rest) = read s σ' rest := by
  obtain ⟨core, τ, hcomplete, hread⟩ := h.read_append σ hσ
  have hstep : readStep (.value core) τ (.mark m) = some (s, σ') := by
    have hvalue : valueStep core τ (.mark m) = close m (complete 0 core τ).1 (complete 0 core τ).2 := by
      cases m with
      | closing b => cases b <;> rfl
      | comma => rfl
      | _ => cases hm
    rw [readStep, hvalue, hcomplete, hclose]
  rw [hread, read_cons hstep]

theorem Whole.group (h : Whole ts t) :
    Tight (.mark (.opening .round) :: (ts ++ [.mark (.closing .round)])) (.group t) := by
  refine ⟨⟨_, _, rfl, by simp, by simp [Term.opensWithBrace]⟩, rfl, fun σ rest => ?_⟩
  have hstep : readStep .operand σ (.mark (.opening .round)) = some (.operand, .group :: σ) := rfl
  rw [cons_append, read_cons hstep, append_assoc, singleton_append, h.read_end rfl rfl rfl]

theorem Tight.index {bs ks : List Lexeme} {b k : Term} (hb : Tight bs b) (hk : Whole ks k) :
    Tight (bs ++ .mark (.opening .square) :: (ks ++ [.mark (.closing .square)])) (.index b k) := by
  refine ⟨hb.begins.append rfl _, rfl, fun σ rest => ?_⟩
  have hstep : readStep (.value b) σ (.mark (.opening .square)) = some (.operand, .index b :: σ) := by
    simp only [readStep, valueStep, hb.base]
    rfl
  rw [append_assoc, hb.read_append, cons_append, read_cons hstep, append_assoc,
    singleton_append, hk.read_end rfl rfl rfl]

theorem Tight.field (h : Tight ts t) (name : List Char) :
    Tight (ts ++ [.mark .dot, .word name]) (.field t name) := by
  refine ⟨h.begins.append rfl _, rfl, fun σ rest => ?_⟩
  have hstep : readStep (.value t) σ (.mark .dot) = some (.field t, σ) := by
    simp only [readStep, valueStep, h.base]
    rfl
  have hname : readStep (.field t) σ (.word name) = some (.value (.field t name), σ) := rfl
  rw [append_assoc, h.read_append, cons_append, read_cons hstep, cons_append, read_cons hname,
    nil_append]

/-! ### Lists -/

inductive Items : List Lexeme → List Term → Prop
  | single {ts : List Lexeme} {t : Term} (h : Whole ts t) : Items ts [t]
  | cons {ts us : List Lexeme} {t : Term} {l : List Term} (h : Whole ts t) (hl : Items us l) :
    Items (ts ++ .mark .comma :: us) (t :: l)

theorem Items.begins (h : Items ts l) : ∃ t, Begins ts t := by
  cases h with
  | single h => exact ⟨_, h.begins⟩
  | cons h _ => exact ⟨_, h.begins.append rfl _⟩

/-- A bracket that collects expressions up to its end. -/
structure Collects (frame : List Term → Pending) (last : Mark) (result : List Term → Term) : Prop where
  isEnd : last.isEnd = true
  rest : ∀ done σ, atRest (frame done :: σ) = true
  comma : ∀ done t σ, close .comma t (frame done :: σ) = some (.operand, frame (done ++ [t]) :: σ)
  close : ∀ done t σ, close last t (frame done :: σ) = some (.value (result (done ++ [t])), σ)

theorem collects_arguments (callee : Term) :
    Collects (.arguments callee) (.closing .round) (.call callee) :=
  ⟨rfl, fun _ _ => rfl, fun _ _ _ => rfl, fun _ _ _ => rfl⟩

theorem collects_elements : Collects .elements (.closing .square) .array :=
  ⟨rfl, fun _ _ => rfl, fun _ _ _ => rfl, fun _ _ _ => rfl⟩

theorem Items.read_eq {frame : List Term → Pending} {last : Mark} {result : List Term → Term}
    (hf : Collects frame last result) (h : Items ts l) (done : List Term) (σ : List Pending)
    (rest : List Lexeme) :
    read .operand (frame done :: σ) (ts ++ .mark last :: rest) = read (.value (result (done ++ l))) σ rest := by
  induction h generalizing done with
  | single h => exact h.read_end (hf.rest done σ) hf.isEnd (hf.close done _ σ) rest
  | cons h _ ih =>
    rw [append_assoc, cons_append, h.read_end (hf.rest done σ) rfl (hf.comma done _ σ), ih,
      append_assoc, singleton_append]

/-- The lexemes between two brackets: expressions with commas between them, or nothing. -/
def Listed (ts : List Lexeme) (l : List Term) : Prop := ts = [] ∧ l = [] ∨ Items ts l

theorem Tight.call {fs : List Lexeme} {f : Term} (hf : Tight fs f) (h : Listed ts l) :
    Tight (fs ++ .mark (.opening .round) :: (ts ++ [.mark (.closing .round)])) (.call f l) := by
  refine ⟨hf.begins.append rfl _, rfl, fun σ rest => ?_⟩
  have hstep : readStep (.value f) σ (.mark (.opening .round)) = some (.opened, .arguments f [] :: σ) := by
    simp only [readStep, valueStep, hf.base]
    rfl
  rw [append_assoc, hf.read_append, cons_append, read_cons hstep, append_assoc,
    singleton_append]
  rcases h with ⟨rfl, rfl⟩ | h
  · exact read_cons rfl rest
  · obtain ⟨t, ht⟩ := h.begins
    rw [read_opened ht, h.read_eq (collects_arguments f), nil_append]

theorem Listed.array (h : Listed ts l) :
    Tight (.mark (.opening .square) :: (ts ++ [.mark (.closing .square)])) (.array l) := by
  refine ⟨⟨_, _, rfl, by simp, by simp [Term.opensWithBrace]⟩, rfl, fun σ rest => ?_⟩
  have hstep : readStep .operand σ (.mark (.opening .square)) = some (.opened, .elements [] :: σ) := rfl
  rw [cons_append, read_cons hstep, append_assoc, singleton_append]
  rcases h with ⟨rfl, rfl⟩ | h
  · exact read_cons rfl rest
  · obtain ⟨t, ht⟩ := h.begins
    rw [read_opened ht, h.read_eq collects_elements, nil_append]

inductive EntryItems : List Lexeme → List (Term × Term) → Prop
  | single {ks vs : List Lexeme} {k v : Term} (hk : Whole ks k) (hv : Whole vs v) :
    EntryItems (.mark (.opening .square) :: (ks ++ .mark (.closing .square) :: .mark .colon :: vs)) [(k, v)]
  | cons {ks vs us : List Lexeme} {k v : Term} {l : List (Term × Term)} (hk : Whole ks k) (hv : Whole vs v)
    (hl : EntryItems us l) :
    EntryItems (.mark (.opening .square) ::
      (ks ++ .mark (.closing .square) :: .mark .colon :: (vs ++ .mark .comma :: us))) ((k, v) :: l)

theorem Whole.read_key {ks : List Lexeme} {k : Term} (hk : Whole ks k) (done : List (Term × Term))
    (σ : List Pending) (rest : List Lexeme) :
    read (.entry done) σ (.mark (.opening .square) :: (ks ++ .mark (.closing .square) :: .mark .colon :: rest)) =
      read .operand (.entry done k :: σ) rest := by
  have hopen : readStep (.entry done) σ (.mark (.opening .square)) = some (.operand, .key done :: σ) := rfl
  have hcolon : readStep (.key done k) σ (.mark .colon) = some (.operand, .entry done k :: σ) := rfl
  rw [read_cons hopen, hk.read_end rfl rfl rfl, read_cons hcolon]

theorem EntryItems.read_eq {l : List (Term × Term)} (h : EntryItems ts l)
    (done : List (Term × Term)) (σ : List Pending) (rest : List Lexeme) :
    read (.entry done) σ (ts ++ .mark (.closing .curly) :: rest) = read (.value (.object (done ++ l))) σ rest := by
  induction h generalizing done with
  | single hk hv =>
    simp only [cons_append, append_assoc]
    rw [hk.read_key, hv.read_end rfl rfl rfl]
  | cons hk hv _ ih =>
    simp only [cons_append, append_assoc]
    rw [hk.read_key, hv.read_end rfl rfl rfl, ih, append_assoc, singleton_append]

def ListedEntries (ts : List Lexeme) (l : List (Term × Term)) : Prop := ts = [] ∧ l = [] ∨ EntryItems ts l

theorem ListedEntries.object {l : List (Term × Term)} (h : ListedEntries ts l) :
    Tight (.mark (.opening .curly) :: (ts ++ [.mark (.closing .curly)])) (.object l) := by
  refine ⟨⟨_, _, rfl, by simp, by simp [Term.opensWithBrace]⟩, rfl, fun σ rest => ?_⟩
  have hstep : readStep .operand σ (.mark (.opening .curly)) = some (.entry [], σ) := rfl
  rw [cons_append, read_cons hstep, append_assoc, singleton_append]
  rcases h with ⟨rfl, rfl⟩ | h
  · exact read_cons rfl rest
  · rw [h.read_eq, nil_append]

-- A sign binds tighter than an operator, and may not stand bare before the left operand of a power.
example : Term.ofText? "-a - b * c" = some (.operation (.signed .minus (.word ['a'])) .sub
    (.operation (.word ['b']) .mul (.word ['c']))) := by
  rfl

example : (Term.ofText? "-a ** b").isNone = true := by decide +kernel

end JavaScript

end LemonScript
