import LemonScript.Grammar.Program
import LemonScript.Proofs.Token.Line
import LemonScript.Proofs.Token.StringLiteral
/-!
# Printed expressions

What it means that some tokens print an expression. The levels are those of the grammar, from the
loosest to the tightest:

* 0 to 3, the operators that group to the left: `&&` and `||`, comparisons, sums, products
* 4, the operator `^`, which groups to the right
* 5, the prefixes `-` and `!`
* 6, calls, literals and whatever stands in parentheses
* 7, variables with their accessors

An operand has to be printed at the level that its place asks for or at a tighter one. Parentheses
lead back from level 6 to level 0, and they may be put around any operand that is not a variable with
an accessor or a call behind it.
-/

namespace LemonScript

def leftOperators : Nat → List BinaryOp
  | 0 => [.and, .or]
  | 1 => [.lessEq, .less, .equal, .notEqual, .greaterEq, .greater]
  | 2 => [.add, .sub]
  | 3 => [.mul, .div, .mod]
  | _ => []

/-- The tokens print the expression, and nothing in them binds looser than the level. -/
inductive Prints : Nat → Node → List String → Prop
  | tighter {l : Nat} {e : Node} {ts : List String} (h : Prints (l + 1) e ts) : Prints l e ts
  | infixed {l : Nat} {op : BinaryOp} {left right : Node} {ts us : List String}
      (hop : op ∈ leftOperators l) (hleft : Prints l left ts) (hright : Prints (l + 1) right us) :
      Prints l (.binary left op right .nothing) (ts ++ op.spelling :: us)
  | power {base exponent : Node} {ts us : List String} (hbase : Prints 5 base ts)
      (hexponent : Prints 4 exponent us) :
      Prints 4 (.binary base .pow exponent .nothing) (ts ++ BinaryOp.pow.spelling :: us)
  | signed {op : UnaryOp} {operand : Node} {ts : List String} (hop : op ∈ [UnaryOp.neg, .not])
      (h : Prints 5 operand ts) : Prints 5 (.unary op operand true .nothing) (op.spelling :: ts)
  | parenthesized {e : Node} {ts : List String} (h : Prints 0 e ts) :
      Prints 6 e ("(" :: ts ++ [")"])
  | species {e : Node} {ts : List String} (h : Prints 0 e ts) :
      Prints 6 (.call (.ident Keyword.species.spelling) (some [e]) .nothing)
        (Keyword.species.spelling :: "(" :: ts ++ [")"])
  | call {callee : Node} {ts : List String} {args : List (Node × List String)}
      (hcallee : Prints 7 callee ts) (hargs : ∀ a ∈ args, Prints 0 a.1 a.2) :
      Prints 6 (.call callee (some (args.map Prod.fst)) .nothing)
        (ts ++ "(" :: [","].intercalate (args.map Prod.snd) ++ [")"])
  | array {elements : List (Node × List String)} (h : ∀ e ∈ elements, Prints 0 e.1 e.2) :
      Prints 6 (.arrayLit (some (elements.map Prod.fst)) .nothing)
        ("[" :: [","].intercalate (elements.map Prod.snd) ++ ["]"])
  | map {entries : List (Entry Node × List String × List String)}
      (hkey : ∀ e ∈ entries, Prints 0 e.1.key e.2.1)
      (hvalue : ∀ e ∈ entries, Prints 0 e.1.value e.2.2) :
      Prints 6 (.mapLit (entries.map Prod.fst) .nothing)
        ("\x7b" :: [","].intercalate (entries.map fun e => e.2.1 ++ ":" :: e.2.2) ++ ["\x7d"])
  | integer {digits : String} (h : isNumeral digits) :
      Prints 6 (.intLit (decimalValue digits.toList)) [digits]
  | string {body text : List Char} (h : Quotes body text) :
      Prints 6 (.stringLit (String.ofList text)) [String.ofList ('"' :: body ++ ['"'])]
  | boolean (value : Bool) :
      Prints 6 (.ofBool value) [(if value then Keyword.sweet else Keyword.sour).spelling]
  | name {name : String} (h : identifier? name.toList = some name.toList) :
      Prints 7 (.ident name) [name]
  | index {v : Node} {ts : List String} {digits : String} (hv : Prints 7 v ts)
      (hdigits : isNumeral digits) :
      Prints 7 (.member v (some (decimalValue digits.toList)) .nothing) (ts ++ ["[", digits, "]"])
  | key {v key : Node} {ts us : List String} (hv : Prints 7 v ts) (hkey : Prints 0 key us) :
      Prints 7 (.property v key .nothing)
        (ts ++ "." :: Keyword.key.spelling :: "(" :: us ++ [")"])

variable {l : Nat} {ts : List String}

namespace Prints

variable {l : Nat} {e : Node} {ts : List String}
variable {op : BinaryOp}

theorem looser {k : Nat} (h : Prints l e ts) (hle : k ≤ l) : Prints k e ts := by
  induction l, hle using Nat.le_induction with
  | base => exact h
  | succ l hle ih => exact ih h.tighter

theorem lt_of_mem_leftOperators (h : op ∈ leftOperators l) : l < 4 := by
  by_contra hl
  rw [leftOperators] at h
  · cases h
  all_goals omega

theorem level_le (h : Prints l e ts) : l ≤ 7 := by
  induction h with
  | infixed _ _ _ ihleft => exact ihleft
  | _ => omega

theorem solid_spelling (h : op ∈ leftOperators l) : isSolid op.spelling := by
  have hall : ∀ l < 4, ∀ op ∈ leftOperators l, isSolid op.spelling := by decide
  exact hall l (lt_of_mem_leftOperators h) op h

theorem solid_intercalate {tss : List (List String)} (h : ∀ ts ∈ tss, ts.all isSolid) :
    ([","].intercalate tss).all isSolid := by
  cases tss with
  | nil => rfl
  | cons ts tss =>
    have hcomma : isSolid "," := by decide
    rw [intercalate_singleton_cons, List.all_append, List.all_flatMap, Bool.and_eq_true]
    refine ⟨h ts List.mem_cons_self, List.all_eq_true.mpr ?_⟩
    intro us hus
    rw [List.all_cons, hcomma, Bool.true_and]
    exact h us (List.mem_cons_of_mem ts hus)

theorem solid_marks : ∀ t ∈ ["(", ")", "[", "]", "\x7b", "\x7d", ":", ".", "^",
    Keyword.species.spelling, Keyword.key.spelling], isSolid t := by
  decide

theorem solid (h : Prints l e ts) : ts.all isSolid := by
  have hmarks := solid_marks
  simp only [List.forall_mem_cons, List.not_mem_nil, false_implies, implies_true, and_true] at hmarks
  obtain ⟨hopen, hclose, hopen', hclose', hbrace, hbrace', hcolon, hdot, hpow, hspecies, hkey⟩ :=
    hmarks
  induction h with
  | tighter h ih => exact ih
  | infixed hop _ _ ihleft ihright => simp [ihleft, solid_spelling hop, ihright]
  | power _ _ ihbase ihexponent => simp [ihbase, BinaryOp.spelling, hpow, ihexponent]
  | signed hop h ih =>
    have hsolid : ∀ op ∈ [UnaryOp.neg, .not], isSolid op.spelling := by decide
    simp [hsolid _ hop, ih]
  | parenthesized h ih => simp [hopen, ih, hclose]
  | species h ih => simp [hspecies, hopen, ih, hclose]
  | call _ _ ihcallee ihargs =>
    have hlist := solid_intercalate (List.forall_mem_map.mpr ihargs)
    simp [ihcallee, hopen, hlist, hclose]
  | array h ih =>
    have hlist := solid_intercalate (List.forall_mem_map.mpr ih)
    simp [hopen', hlist, hclose']
  | @map entries hkeys hvalues ihkey ihvalue =>
    have hentry : ∀ e ∈ entries, (e.2.1 ++ ":" :: e.2.2).all isSolid := by
      intro e he
      simp [ihkey e he, hcolon, ihvalue e he]
    have hlist := solid_intercalate (List.forall_mem_map.mpr hentry)
    simp [hbrace, hlist, hbrace']
  | integer h => simp [isSolid_of_isNumeral h]
  | @string body text h =>
    have htoList : (String.ofList ('"' :: body ++ ['"'])).toList = '"' :: (body ++ ['"']) :=
      String.toList_ofList
    have hquote := isSolid_of_head htoList (by decide) (by decide) (by decide)
    simpa using hquote
  | boolean value => cases value <;> decide
  | name h => simp [isSolid_of_isLetter (starts_of_identifier? h).1]
  | index hv hdigits ih => simp [ih, hopen', isSolid_of_isNumeral hdigits, hclose']
  | key _ _ ihv ihkey => simp [ihv, hdot, hkey, hopen, ihkey, hclose]

/-- Neither a sign nor a negation begins what is printed at the levels of calls and variables. -/
theorem opens (h : Prints l e ts) (hl : 6 ≤ l) :
    ∃ t ts', ts = t :: ts' ∧ ∀ op ∈ ["-", "!"], startsWithOperator op t.toList = false := by
  induction h with
  | tighter h ih => exact ih (Nat.le_succ_of_le hl)
  | infixed hop => exact absurd (lt_of_mem_leftOperators hop) (by omega)
  | power | signed => omega
  | parenthesized | species => exact ⟨_, _, rfl, by decide⟩
  | call _ _ ih =>
    obtain ⟨t, ts', rfl, ht⟩ := ih (by omega)
    exact ⟨t, _, rfl, ht⟩
  | array | map => exact ⟨_, _, rfl, by decide⟩
  | integer h => exact ⟨_, _, rfl, startsWithOperator_of_head (by decide) (head_of_isNumeral h)⟩
  | string h =>
    refine ⟨_, _, rfl, ?_⟩
    rw [String.toList_ofList]
    exact fun op hop => startsWithOperator_of_head (p := (· == '"')) (by decide) rfl op hop
  | boolean value => cases value <;> exact ⟨_, _, rfl, by decide⟩
  | name h => exact ⟨_, _, rfl, startsWithOperator_of_head (by decide) (starts_of_identifier? h).1⟩
  | index _ _ ih =>
    obtain ⟨t, ts', rfl, ht⟩ := ih (by omega)
    exact ⟨t, _, rfl, ht⟩
  | key hv hkey ih =>
    obtain ⟨t, ts', rfl, ht⟩ := ih hl
    exact ⟨t, _, rfl, ht⟩

end Prints

/-! ### What may stand behind an operand -/

/-- The tokens with which an operand of a level goes on. -/
def joiners : Nat → List String
  | 4 => [BinaryOp.pow.spelling]
  | 6 => ["("]
  | 7 => ["[", "."]
  | l => (leftOperators l).map BinaryOp.spelling

/-- The tokens that may stand behind an operand of a level: those with which an operand of a looser
level goes on, and those with which no operand goes on. -/
def followers (l : Nat) : List String :=
  [")", "]", ",", ":", "\x7d"] ++ (List.range l).flatMap joiners

/-- An operand of a level ends in front of these tokens. -/
def Stops (l : Nat) (ts : List String) : Prop :=
  ∃ t ∈ followers l, ∃ ts', ts = t :: ts'

theorem Stops.mono {l' : Nat} (h : Stops l ts) (hle : l ≤ l') : Stops l' ts := by
  obtain ⟨t, ht, ts', rfl⟩ := h
  refine ⟨t, ?_, ts', rfl⟩
  simp only [followers, List.mem_append, List.mem_flatMap, List.mem_range] at ht ⊢
  refine ht.imp_right ?_
  rintro ⟨j, hj, ht⟩
  exact ⟨j, hj.trans_le hle, ht⟩

theorem stops_of_mem_joiners {j : Nat} {t : String} (ht : t ∈ joiners j) (hj : j < l)
    (ts : List String) : Stops l (t :: ts) := by
  refine ⟨t, ?_, ts, rfl⟩
  simp only [followers, List.mem_append, List.mem_flatMap, List.mem_range]
  exact .inr ⟨j, hj, ht⟩

theorem Stops.refuses (h : Stops l ts) (hl : l ≤ 7) :
    ∀ op ∈ joiners l, startsWithOperator op (line ts) = false := by
  have hall : ∀ l < 8, ∀ t ∈ followers l, ∀ op ∈ joiners l,
      ' ' ∉ op.toList ∧ startsWithOperator op t.toList = false := by decide
  obtain ⟨t, ht, ts', rfl⟩ := h
  intro op hop
  obtain ⟨hblank, hrefuses⟩ := hall l (by omega) t ht op hop
  rw [startsWithOperator_line hblank]
  exact hrefuses

theorem Stops.punctuated (h : Stops l ts) (hl : l ≤ 8) : Punctuated ts := by
  have hall : ∀ t ∈ followers 8, t.toList ≠ [] ∧ t.toList.head?.any isLetter = false := by
    decide
  obtain ⟨t, ht, ts', rfl⟩ := h.mono hl
  obtain ⟨hne, hletter⟩ := hall t ht
  unfold Punctuated
  rw [head?_line hne]
  exact hletter

end LemonScript
