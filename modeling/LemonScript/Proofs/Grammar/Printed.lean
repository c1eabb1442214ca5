import LemonScript.Proofs.Grammar.Leads
import LemonScript.Proofs.Grammar.Printing
/-!
# Parsing inverts printing

A printed expression is read back, whatever may stand behind it. The induction is on how the
expression was printed, and it says of each level how the rule of that level gets through the tokens.
For the levels that group to the left this is how far a chain has come, since the rule may still go
on behind the operand. A program that pours one printed expression is that single statement.
-/

namespace LemonScript

open Rule
open List (append_assoc cons_append nil_append)

variable {Q : Outcome Node → Prop} {l : Nat} {e : Node}

namespace Grammar

variable {limit : Nat} {g : Rules} {ts rest : List String} {e v : Node}

/-! ### Rules further in -/

variable {t : String}

theorem leads_inner_expression (h : ∀ levels, (expression (rules limit levels)).Leads ts Q)
    (levels : Nat) : (rules limit levels).expression.Leads ts Q := by
  cases levels with
  | zero => exact leads_tooDeep Q
  | succ levels => exact h levels

theorem leads_inner_unary (h : ∀ levels, (unary (rules limit levels)).Leads ts Q) (levels : Nat) :
    (rules limit levels).unary.Leads ts Q := by
  cases levels with
  | zero => exact leads_tooDeep Q
  | succ levels => exact h levels

theorem leads_inner_power (h : ∀ levels, (power (rules limit levels)).Leads ts Q) (levels : Nat) :
    (rules limit levels).power.Leads ts Q := by
  cases levels with
  | zero => exact leads_tooDeep Q
  | succ levels => exact h levels

theorem yields_reference (h : (accessors g).Yields ts v rest) : (reference g).Yields ts v rest := by
  intro u hu
  rw [reference_of_none rfl]
  rcases h.rewinding u hu with hrun | ⟨u', hu', hrun⟩
  · rw [hrun]
    exact .inl rfl
  · rw [hrun]
    exact .inr ⟨u', hu', rfl⟩

theorem refuses_reference (h : identifier? (line ts) = none) : (reference g).Refuses ts := by
  have haccessors : (accessors g).Refuses ts := (refuses_identifier h).bind _
  intro u hu
  rw [reference_of_none rfl]
  rcases haccessors.rewinding u hu with hrun | ⟨u', hu', hrun⟩
  · rw [hrun]
    exact .inl rfl
  · rw [hrun]
    exact .inr ⟨u', hu', rfl⟩

/-! ### Where no expression begins -/

/-- No expression and no statement begins with these tokens. -/
structure Barren (ts : List String) : Prop where
  punctuated : Punctuated ts
  digit : (line ts).head?.any isDigit = false
  quote : (line ts).head? ≠ some '"'
  operator : ∀ op ∈ ["(", "[", "\x7b", "-", "!", "<"], startsWithOperator op (line ts) = false

theorem barren_nil : Barren [] :=
  ⟨rfl, rfl, by decide, by decide⟩

theorem barren_closing (ht : t ∈ [")", "]", "\x7d"]) (ts : List String) : Barren (t :: ts) := by
  have hall : ∀ t ∈ [")", "]", "\x7d"], t.toList ≠ [] ∧ t.toList.head?.any isLetter = false ∧
      t.toList.head?.any isDigit = false ∧ t.toList.head? ≠ some '"' ∧
      ∀ op ∈ ["(", "[", "\x7b", "-", "!", "<"],
        ' ' ∉ op.toList ∧ startsWithOperator op t.toList = false := by decide
  obtain ⟨hne, hletter, hdigit, hquote, hop⟩ := hall t ht
  have hhead := head?_line hne ts
  refine ⟨?_, ?_, ?_, ?_⟩
  · rw [Punctuated, hhead]
    exact hletter
  · rw [hhead]
    exact hdigit
  · rw [hhead]
    exact hquote
  · intro op hmem
    rw [startsWithOperator_line (hop op hmem).1]
    exact (hop op hmem).2

theorem Barren.keyword (h : Barren ts) (k : Keyword) : (Rule.keyword k).Refuses ts :=
  refuses_keyword (h.punctuated.startsWithWord k)

theorem Barren.reference (h : Barren ts) : (reference g).Refuses ts :=
  refuses_reference h.punctuated.identifier?

theorem Barren.unary (h : Barren ts) : (unary g).Refuses ts := by
  have hsigned : ∀ start, ∀ op ∈ [UnaryOp.neg, .not], (signed g start op).Refuses ts := by
    intro start op hop
    refine (refuses_operator (h.operator op.spelling ?_)).bind _
    revert op
    decide
  refine Leads.mark_bind fun start => ?_
  refine (hsigned start .neg (by decide)).orElse ((hsigned start .not (by decide)).orElse ?_)
  refine Refuses.choice ((h.keyword .species).bind _) ?_
  refine Refuses.choice (h.reference.bind _) ?_
  refine Refuses.choice ((refuses_operator (h.operator "(" (by decide))).bind _) ?_
  refine Refuses.choice ((refuses_operator (h.operator "[" (by decide))).bind _) ?_
  refine Refuses.choice ((refuses_operator (h.operator "\x7b" (by decide))).bind _) ?_
  refine Refuses.choice (refuses_number h.digit) ?_
  refine Refuses.choice (refuses_stringLiteral h.quote) ?_
  refine Refuses.choice (Refuses.orElse ((h.keyword .sweet).bind _) ((h.keyword .sour).bind _)) ?_
  exact refuses_fail

theorem Barren.expression (h : Barren ts) : (expression g).Refuses ts :=
  (((((h.unary).bind _).bind _).bind _).bind _).bind _

/-! ### Rules and steps of the levels -/

def operandRule (g : Rules) : Nat → Rule Node
  | 0 => expression g
  | 1 => relational g
  | 2 => additive g
  | 3 => multiplicative g
  | 4 => power g
  | 5 => unary g
  | 6 => primary g
  | _ => accessors g

def chainStep (ops : List BinaryOp) (operand : Rule Node) (left : Node) : Rule Node := do
  let start ← mark
  let op ← anyOperator ops
  onFailure start do
    let right ← operand
    return .binary left op right .nothing

def access (g : Rules) (v : Node) : Rule Node :=
  rewinding (indexAccess v) <|> rewinding (keyAccess g v)

theorem operandRule_eq (g : Rules) (hl : l < 4) :
    operandRule g l = operandRule g (l + 1) >>=
      extend (chainStep (leftOperators l) (operandRule g (l + 1))) g.limit := by
  match l, hl with
  | 0, _ | 1, _ | 2, _ | 3, _ => rfl

/-- How the rules get through the tokens of an operand, whatever stands behind it. -/
structure Understood (limit l : Nat) (e : Node) (ts : List String) : Prop where
  chain : l < 4 → ∀ levels rest, Stops (l + 1) rest →
    (operandRule (rules limit levels) l).Leads (ts ++ rest)
      (Extending (chainStep (leftOperators l) (operandRule (rules limit levels) (l + 1))) e rest)
  plain : 4 ≤ l → l ≤ 6 → ∀ levels rest, Stops l rest →
    (operandRule (rules limit levels) l).Yields (ts ++ rest) e rest
  accessed : l = 7 → ∀ levels rest, Stops 8 rest → (keyword .species).Refuses (ts ++ rest) ∧
    (accessors (rules limit levels)).Leads (ts ++ rest) (Extending (access (rules limit levels)) e rest)

section Operands

variable {l : Nat} {us : List String}
variable {key : Node} {entries : List (Entry Node × List String × List String)} {digits : String}

theorem refuses_chainStep {operand : Rule Node} (hl : l < 4) (h : Stops l rest) :
    (chainStep (leftOperators l) operand e).Refuses rest := by
  refine Leads.mark_bind fun start => Refuses.bind _ (refuses_anyOperator ?_)
  intro op hop
  refine h.refuses (by omega) op.spelling ?_
  match l, hl with
  | 0, _ | 1, _ | 2, _ | 3, _ => exact List.mem_map_of_mem hop

theorem refuses_access (h : Stops 7 rest) : (access g v).Refuses rest := by
  refine Refuses.orElse (Refuses.rewinding ?_) (Refuses.rewinding ?_)
  · exact (refuses_operator (h.refuses le_rfl "[" (by decide))).bind _
  · exact (refuses_operator (h.refuses le_rfl "." (by decide))).bind _

theorem Understood.yields (h : Understood limit l e ts) (hl : l ≤ 7) (hrest : Stops l rest)
    (levels : Nat) : (operandRule (rules limit levels) l).Yields (ts ++ rest) e rest := by
  by_cases hchain : l < 4
  · exact (h.chain hchain levels rest (hrest.mono (Nat.le_succ l))).yields
      (refuses_chainStep hchain hrest)
  · by_cases hplain : l ≤ 6
    · exact h.plain (by omega) hplain levels rest hrest
    · obtain rfl : l = 7 := by omega
      exact (h.accessed rfl levels rest (hrest.mono (by omega))).2.yields (refuses_access hrest)

theorem punctuated_parenthesis (ts : List String) : Punctuated ("(" :: ts) :=
  (stops_of_mem_joiners (show "(" ∈ joiners 6 by decide) (show 6 < 8 by omega) ts).punctuated le_rfl

theorem understood_of_plain (hl : 4 ≤ l) (hl' : l ≤ 6) (h : ∀ levels rest, Stops l rest →
    (operandRule (rules limit levels) l).Yields (ts ++ rest) e rest) : Understood limit l e ts :=
  ⟨fun h4 => by omega, fun _ _ => h, fun h7 => by omega⟩

theorem understood_of_accessed (h : ∀ levels rest, Stops 8 rest →
    (keyword .species).Refuses (ts ++ rest) ∧ (accessors (rules limit levels)).Leads (ts ++ rest)
      (Extending (access (rules limit levels)) e rest)) : Understood limit 7 e ts :=
  ⟨fun h4 => by omega, fun _ h6 => by omega, fun _ => h⟩

/-! ### Operators -/

theorem understood_infixed {op : BinaryOp} {left right : Node} (hop : op ∈ leftOperators l)
    (hleft : Understood limit l left ts) (hright : Understood limit (l + 1) right us) :
    Understood limit l (.binary left op right .nothing) (ts ++ op.spelling :: us) := by
  have hl := Prints.lt_of_mem_leftOperators hop
  have hops : ∀ l < 4, ∀ op ∈ leftOperators l, ∀ op' ∈ leftOperators l,
      ' ' ∉ op'.spelling.toList ∧ startsWithOperator op'.spelling op.spelling.toList = (op' == op) := by
    decide
  have hjoiner : op.spelling ∈ joiners l := by
    match l, hl with
    | 0, _ | 1, _ | 2, _ | 3, _ => exact List.mem_map_of_mem hop
  refine ⟨fun _ levels rest hrest => ?_, fun h4 => by omega, fun h7 => by omega⟩
  rw [append_assoc, cons_append]
  have hstep := hleft.chain hl levels _ (stops_of_mem_joiners hjoiner (Nat.lt_succ_self l) (us ++ rest))
  refine hstep.extending (Leads.mark_bind fun start => ?_)
  have hself := hops l hl op hop op hop
  refine (yields_anyOperator hop ⟨hself.1, hself.2.trans (by simp)⟩ ?_).bind ?_
  · intro op' hop' hne
    have hother := hops l hl op hop op' hop'
    exact ⟨hother.1, hother.2.trans (by simpa using hne)⟩
  · refine Yields.onFailure ?_ start
    exact (hright.yields (by omega) hrest levels).bind yields_pure

theorem understood_power {base exponent : Node} (hbase : Understood limit 5 base ts)
    (hexponent : Understood limit 4 exponent us) :
    Understood limit 4 (.binary base .pow exponent .nothing) (ts ++ BinaryOp.pow.spelling :: us) := by
  refine understood_of_plain le_rfl (by omega) fun levels rest hrest => ?_
  rw [append_assoc, cons_append]
  have hpow := stops_of_mem_joiners (show "^" ∈ joiners 4 by decide) (show 4 < 5 by omega) (us ++ rest)
  have hinner := leads_inner_power (hexponent.yields (by omega) hrest) levels
  refine (hbase.yields (by omega) hpow levels).bind ?_
  have hright : (do operator BinaryOp.pow.spelling; (rules limit levels).power).Yields
      (BinaryOp.pow.spelling :: (us ++ rest)) exponent rest :=
    (yields_operator (by decide) (by decide)).bind hinner
  exact hright.rewinding.attempt.bind yields_pure

theorem understood_signed {op : UnaryOp} (hop : op ∈ [UnaryOp.neg, .not])
    (h : Understood limit 5 e ts) :
    Understood limit 5 (.unary op e true .nothing) (op.spelling :: ts) := by
  refine understood_of_plain (by omega) (by omega) fun levels rest hrest => ?_
  have hinner : (rules limit levels).unary.Yields (ts ++ rest) e rest :=
    leads_inner_unary (h.yields (by omega) hrest) levels
  have hsigned : ∀ start, startsWithOperator op.spelling op.spelling.toList →
      ' ' ∉ op.spelling.toList → (signed (rules limit levels) start op).Yields
        (op.spelling :: (ts ++ rest)) (.unary op e true .nothing) rest := by
    intro start hself hblank
    refine (yields_operator hblank hself).bind (Yields.onFailure ?_ start)
    exact hinner.bind yields_pure
  refine Leads.mark_bind fun start => ?_
  simp only [List.mem_cons, List.not_mem_nil, or_false] at hop
  rcases hop with rfl | rfl
  · exact (hsigned start (by decide) (by decide)).orElse _
  · have hneg : (signed (rules limit levels) start .neg).Refuses (UnaryOp.not.spelling :: (ts ++ rest)) :=
      (refuses_operator ((startsWithOperator_line (by decide) _ _).trans (by decide))).bind _
    exact hneg.orElse ((hsigned start (by decide) (by decide)).orElse _)

/-! ### Calls and literals -/

theorem yields_parenthesized (h : Understood limit 0 e ts) (levels : Nat) (rest : List String) :
    (parenthesized (rules limit levels)).Yields ("(" :: (ts ++ ")" :: rest)) e rest := by
  have hstops : Stops 0 (")" :: rest) := ⟨")", by decide, rest, rfl⟩
  have hinner : (rules limit levels).expression.Yields (ts ++ ")" :: rest) e (")" :: rest) :=
    leads_inner_expression (h.yields (by omega) hstops) levels
  refine (yields_operator (by decide) (by decide)).bind (hinner.bind ?_)
  exact (yields_operator (by decide) (by decide)).bind yields_pure

theorem stops_item (ht : t ∈ followers 0) (h : rest = t :: ts ∨ rest.head? = some ",") :
    Stops 0 rest := by
  rcases h with rfl | hhead
  · exact ⟨t, ht, ts, rfl⟩
  · obtain ⟨ts', rfl⟩ := List.head?_eq_some_iff.mp hhead
    exact ⟨",", by decide, ts', rfl⟩

theorem yields_arguments {items : List (Node × List String)}
    (h : ∀ p ∈ items, Understood limit 0 p.1 p.2) (ht : t ∈ [")", "]"]) (levels : Nat)
    (rest : List String) :
    (arguments (rules limit levels)).Yields ([","].intercalate (items.map Prod.snd) ++ t :: rest)
      (items.map Prod.fst) (t :: rest) := by
  have hclosing : ∀ t ∈ [")", "]"], t ∈ followers 0 ∧ t ∈ [")", "]", "\x7d"] ∧
      startsWithOperator "," t.toList = false := by decide
  obtain ⟨hfollower, hbarren, hcomma⟩ := hclosing t ht
  refine yields_separated ?_ ((startsWithOperator_line (by decide) t rest).trans hcomma) ?_ _
  · intro p hp rest' hrest'
    have hstops : Stops 0 rest' := stops_item hfollower hrest'
    exact leads_inner_expression ((h p hp).yields (by omega) hstops) levels
  · exact leads_inner_expression (fun _ => (barren_closing hbarren rest).expression) levels

theorem yields_keyValue {value : Node} (hkey : Understood limit 0 key ts)
    (hvalue : Understood limit 0 value us) (hrest : Stops 0 rest) (levels : Nat) :
    (keyValue (rules limit levels)).Yields (ts ++ ":" :: us ++ rest) ⟨key, value⟩ rest := by
  have hcolon : Stops 0 (":" :: (us ++ rest)) := ⟨":", by decide, _, rfl⟩
  have hfirst : (rules limit levels).expression.Yields (ts ++ ":" :: (us ++ rest)) key (":" :: (us ++ rest)) :=
    leads_inner_expression (hkey.yields (by omega) hcolon) levels
  have hsecond : (rules limit levels).expression.Yields (us ++ rest) value rest :=
    leads_inner_expression (hvalue.yields (by omega) hrest) levels
  rw [append_assoc, cons_append]
  refine Yields.rewinding (hfirst.bind ?_)
  exact (yields_operator (by decide) (by decide)).bind (hsecond.bind yields_pure)

theorem yields_mapLiteral (hkey : ∀ p ∈ entries, Understood limit 0 p.1.key p.2.1)
    (hvalue : ∀ p ∈ entries, Understood limit 0 p.1.value p.2.2) (levels : Nat) (rest : List String) :
    (mapLiteral (rules limit levels)).Yields
      ("\x7b" :: ([","].intercalate (entries.map fun p => p.2.1 ++ ":" :: p.2.2) ++ "\x7d" :: rest))
      (.mapLit (entries.map Prod.fst) .nothing) rest := by
  have hnone : (keyValue (rules limit levels)).Refuses ("\x7d" :: rest) := by
    have hbarren : Barren ("\x7d" :: rest) := barren_closing (by decide) rest
    have hinner : (rules limit levels).expression.Refuses ("\x7d" :: rest) :=
      leads_inner_expression (fun _ => hbarren.expression) levels
    exact (hinner.bind _).rewinding
  let items := entries.map fun p => (p.1, p.2.1 ++ ":" :: p.2.2)
  have hitems : (separated (keyValue (rules limit levels)) (rules limit levels).limit).Yields
      ([","].intercalate (items.map Prod.snd) ++ "\x7d" :: rest) (items.map Prod.fst)
      ("\x7d" :: rest) := by
    refine yields_separated ?_ ((startsWithOperator_line (by decide) _ _).trans (by decide)) hnone _
    intro p hp rest' hrest'
    obtain ⟨entry, hentry, rfl⟩ := List.mem_map.mp hp
    have hstops : Stops 0 rest' := stops_item (by decide) hrest'
    exact yields_keyValue (hkey entry hentry) (hvalue entry hentry) hstops levels
  rw [List.map_map, List.map_map] at hitems
  refine (yields_operator (by decide) (by decide)).bind (hitems.bind ?_)
  exact (yields_operator (by decide) (by decide)).bind yields_pure

theorem leads_primary (hspecies : (keyword .species).Refuses ts)
    (hname : identifier? (line ts) = none)
    (h : (choice [parenthesized g, arrayLiteral g, mapLiteral g, number, stringLiteral,
      boolean]).Leads ts Q) : (primary g).Leads ts Q :=
  Refuses.choice (hspecies.bind _) (Refuses.choice ((refuses_reference hname).bind _) h)

theorem leads_primary_symbol (ht : t ∈ ["(", "[", "\x7b"])
    (h : (choice [parenthesized g, arrayLiteral g, mapLiteral g, number,
      stringLiteral, boolean]).Leads (t :: ts) Q) : (primary g).Leads (t :: ts) Q := by
  have hall : ∀ t ∈ ["(", "[", "\x7b"], t.toList ≠ [] ∧ t.toList.head?.any isLetter = false := by
    decide
  have hpunctuated : Punctuated (t :: ts) := by
    unfold Punctuated
    rw [head?_line (hall t ht).1]
    exact (hall t ht).2
  exact leads_primary (refuses_keyword (hpunctuated.startsWithWord _)) hpunctuated.identifier? h

theorem refuses_bracket {op : String} (hop : op ∈ ["(", "[", "\x7b"])
    (h : startsWithOperator op t.toList = false) (ts : List String) :
    (operator op).Refuses (t :: ts) := by
  have hblank : ∀ op ∈ ["(", "[", "\x7b"], ' ' ∉ op.toList := by decide
  exact refuses_operator ((startsWithOperator_line (hblank op hop) t ts).trans h)

theorem leads_primary_literal (hspecies : (keyword .species).Refuses (t :: ts))
    (hname : identifier? (line (t :: ts)) = none)
    (hops : ∀ op ∈ ["(", "[", "\x7b"], startsWithOperator op t.toList = false)
    (h : (choice [number, stringLiteral, boolean]).Leads (t :: ts) Q) :
    (primary g).Leads (t :: ts) Q := by
  refine leads_primary hspecies hname ?_
  refine Refuses.choice ((refuses_bracket (by decide) (hops "(" (by decide)) ts).bind _) ?_
  refine Refuses.choice ((refuses_bracket (by decide) (hops "[" (by decide)) ts).bind _) ?_
  exact Refuses.choice ((refuses_bracket (by decide) (hops "\x7b" (by decide)) ts).bind _) h

theorem understood_parenthesized (h : Understood limit 0 e ts) :
    Understood limit 6 e ("(" :: ts ++ [")"]) := by
  refine understood_of_plain (by omega) le_rfl fun levels rest _ => ?_
  have hparenthesized := yields_parenthesized h levels rest
  simp only [cons_append, append_assoc, nil_append]
  exact leads_primary_symbol (by decide) (hparenthesized.choice _)

theorem understood_species (h : Understood limit 0 e ts) :
    Understood limit 6 (.call (.ident Keyword.species.spelling) (some [e]) .nothing)
      (Keyword.species.spelling :: "(" :: ts ++ [")"]) := by
  refine understood_of_plain (by omega) le_rfl fun levels rest _ => ?_
  have hparenthesized := yields_parenthesized h levels rest
  have hpunctuated := punctuated_parenthesis (ts ++ ")" :: rest)
  simp only [cons_append, append_assoc, nil_append]
  have hbuiltin : (builtin (rules limit levels) .species).Yields
      (Keyword.species.spelling :: "(" :: (ts ++ ")" :: rest))
      (.call (.ident Keyword.species.spelling) (some [e]) .nothing) rest :=
    (yields_keyword hpunctuated).bind (hparenthesized.bind yields_pure)
  exact hbuiltin.choice _

theorem understood_call {callee : Node} {args : List (Node × List String)}
    (hcallee : Understood limit 7 callee ts) (hargs : ∀ a ∈ args, Understood limit 0 a.1 a.2) :
    Understood limit 6 (.call callee (some (args.map Prod.fst)) .nothing)
      (ts ++ "(" :: [","].intercalate (args.map Prod.snd) ++ [")"]) := by
  refine understood_of_plain (by omega) le_rfl fun levels rest _ => ?_
  have hjoiner : "(" ∈ joiners 6 := by decide
  simp only [cons_append, append_assoc, nil_append]
  set tail := "(" :: ([","].intercalate (args.map Prod.snd) ++ ")" :: rest) with htail
  have hspecies := (hcallee.accessed rfl levels tail (stops_of_mem_joiners hjoiner (by omega) _)).1
  have hreference : (reference (rules limit levels)).Yields (ts ++ tail) callee tail :=
    yields_reference (hcallee.yields le_rfl (stops_of_mem_joiners hjoiner (by omega) _) levels)
  have harguments : (argumentList (rules limit levels)).Yields tail (args.map Prod.fst) rest := by
    refine (yields_operator (by decide) (by decide)).bind ?_
    refine (yields_arguments hargs (by decide) levels rest).bind ?_
    exact (yields_operator (by decide) (by decide)).bind yields_pure
  have hcall : (callOrReference (rules limit levels)).Yields (ts ++ tail)
      (.call callee (some (args.map Prod.fst)) .nothing) rest :=
    hreference.bind (harguments.rewinding.attempt.bind yields_pure)
  exact Refuses.choice (hspecies.bind _) (hcall.choice _)

theorem understood_array {elements : List (Node × List String)}
    (h : ∀ p ∈ elements, Understood limit 0 p.1 p.2) :
    Understood limit 6 (.arrayLit (some (elements.map Prod.fst)) .nothing)
      ("[" :: [","].intercalate (elements.map Prod.snd) ++ ["]"]) := by
  refine understood_of_plain (by omega) le_rfl fun levels rest _ => ?_
  have harray : (arrayLiteral (rules limit levels)).Yields
      ("[" :: ([","].intercalate (elements.map Prod.snd) ++ "]" :: rest))
      (.arrayLit (some (elements.map Prod.fst)) .nothing) rest := by
    refine (yields_operator (by decide) (by decide)).bind ?_
    refine (yields_arguments h (by decide) levels rest).bind ?_
    exact (yields_operator (by decide) (by decide)).bind yields_pure
  simp only [cons_append, append_assoc, nil_append]
  refine leads_primary_symbol (by decide) ?_
  exact Refuses.choice ((refuses_bracket (by decide) (by decide) _).bind _) (harray.choice _)

theorem understood_map (hkey : ∀ p ∈ entries, Understood limit 0 p.1.key p.2.1)
    (hvalue : ∀ p ∈ entries, Understood limit 0 p.1.value p.2.2) :
    Understood limit 6 (.mapLit (entries.map Prod.fst) .nothing)
      ("\x7b" :: [","].intercalate (entries.map fun p => p.2.1 ++ ":" :: p.2.2) ++ ["\x7d"]) := by
  refine understood_of_plain (by omega) le_rfl fun levels rest _ => ?_
  have hmap := yields_mapLiteral hkey hvalue levels rest
  simp only [cons_append, append_assoc, nil_append]
  refine leads_primary_symbol (by decide) ?_
  refine Refuses.choice ((refuses_bracket (by decide) (by decide) _).bind _) ?_
  exact Refuses.choice ((refuses_bracket (by decide) (by decide) _).bind _) (hmap.choice _)

theorem punctuated_of_head {p : Char → Bool} (hp : ∀ c, p c → isLetter c = false)
    (h : t.toList.head?.any p) (ts : List String) : Punctuated (t :: ts) := by
  cases ht : t.toList with
  | nil => simp [ht] at h
  | cons c cs =>
    have hc : p c := by simpa [ht] using h
    simp [Punctuated, line, ht, hp c hc]

theorem understood_integer (h : isNumeral digits) :
    Understood limit 6 (.intLit (decimalValue digits.toList)) [digits] := by
  refine understood_of_plain (by omega) le_rfl fun levels rest _ => ?_
  have hpunctuated : Punctuated (digits :: rest) :=
    punctuated_of_head (fun c => isLetter_eq_false_of_isDigit) (head_of_isNumeral h) rest
  refine leads_primary_literal (refuses_keyword (hpunctuated.startsWithWord _))
    hpunctuated.identifier? (startsWithOperator_of_head (by decide) (head_of_isNumeral h)) ?_
  exact (yields_number h).choice _

theorem understood_string {body text : List Char} (h : Quotes body text) :
    Understood limit 6 (.stringLit (String.ofList text)) [String.ofList ('"' :: body ++ ['"'])] := by
  refine understood_of_plain (by omega) le_rfl fun levels rest _ => ?_
  have htoList : (String.ofList ('"' :: body ++ ['"'])).toList = '"' :: body ++ ['"'] :=
    String.toList_ofList
  have hhead : (String.ofList ('"' :: body ++ ['"'])).toList.head?.any (· == '"') := by
    rw [htoList]
    rfl
  have hpunctuated : Punctuated (String.ofList ('"' :: body ++ ['"']) :: rest) := by
    refine punctuated_of_head (fun c hc => ?_) hhead rest
    rw [beq_iff_eq.mp hc]
    decide
  refine leads_primary_literal (refuses_keyword (hpunctuated.startsWithWord _))
    hpunctuated.identifier? (startsWithOperator_of_head (by decide) hhead) ?_
  have hnumber : number.Refuses (String.ofList ('"' :: body ++ ['"']) :: rest) := by
    refine refuses_number ?_
    rw [line, htoList]
    rfl
  exact Refuses.choice hnumber ((yields_stringLiteral h htoList).choice _)

theorem understood_boolean (value : Bool) : Understood limit 6 (.ofBool value)
    [(if value then Keyword.sweet else Keyword.sour).spelling] := by
  refine understood_of_plain (by omega) le_rfl fun levels rest hrest => ?_
  have hpunctuated := hrest.punctuated (by omega)
  have hlexical : ∀ k ∈ [Keyword.sweet, .sour], k.spelling.toList ≠ [] ∧
      startsWithWord Keyword.species.spelling.toList k.spelling.toList = false ∧
      identifier? k.spelling.toList = none ∧ k.spelling.toList.head?.any isLetter ∧
      k.spelling.toList.head?.any isDigit = false ∧ k.spelling.toList.head? ≠ some '"' := by
    decide
  set k := if value then Keyword.sweet else Keyword.sour with hk
  have hmem : k ∈ [Keyword.sweet, .sour] := by cases value <;> decide
  obtain ⟨hne, hspecies, hname, hletter, hdigit, hquote⟩ := hlexical k hmem
  rw [← head?_line hne rest] at hdigit hquote
  refine leads_primary_literal (refuses_keyword ((startsWithWord_line _ hpunctuated).trans hspecies))
    ((identifier?_line _ hpunctuated).trans hname)
    (startsWithOperator_of_head (by decide) hletter) ?_
  refine Refuses.choice (refuses_number hdigit) (Refuses.choice (refuses_stringLiteral hquote) ?_)
  refine Yields.choice ?_ _
  cases value
  · have hsweet : (keyword .sweet).Refuses (Keyword.sour.spelling :: rest) :=
      refuses_keyword ((startsWithWord_line _ hpunctuated).trans (by decide))
    exact Refuses.orElse (hsweet.bind _) ((yields_keyword hpunctuated).bind yields_pure)
  · have hsweet : (do keyword .sweet; return Node.ofBool true).Yields (Keyword.sweet.spelling :: rest)
        (.ofBool true) rest :=
      (yields_keyword hpunctuated).bind yields_pure
    exact hsweet.orElse _

/-! ### Variables -/

theorem understood_name {name : String} (h : identifier? name.toList = some name.toList) :
    Understood limit 7 (.ident name) [name] := by
  refine understood_of_accessed fun levels rest hrest => ?_
  have hpunctuated := hrest.punctuated le_rfl
  have hspecies : startsWithWord Keyword.species.spelling.toList name.toList = false := by
    have hreserved := (starts_of_identifier? h).2
    unfold startsWithReserved at hreserved
    simpa using List.any_eq_false.mp hreserved .species (by decide)
  refine ⟨refuses_keyword ((startsWithWord_line name hpunctuated).trans hspecies), ?_⟩
  exact (yields_identifier h hpunctuated).bind (leads_extend _)

theorem understood_index (hv : Understood limit 7 v ts) (hdigits : isNumeral digits) :
    Understood limit 7 (.member v (some (decimalValue digits.toList)) .nothing)
      (ts ++ ["[", digits, "]"]) := by
  refine understood_of_accessed fun levels rest hrest => ?_
  rw [append_assoc]
  obtain ⟨hspecies, hchain⟩ := hv.accessed rfl levels ("[" :: digits :: "]" :: rest)
    (stops_of_mem_joiners (show "[" ∈ joiners 7 by decide) (by omega) _)
  refine ⟨hspecies, hchain.extending (Yields.orElse (Yields.rewinding ?_) _)⟩
  refine (yields_operator (by decide) (by decide)).bind ?_
  have hclose : (do operator "]"; return Node.member v (some (decimalValue digits.toList)) .nothing :
      Rule Node).Yields ("]" :: rest) (.member v (some (decimalValue digits.toList)) .nothing) rest :=
    (yields_operator (by decide) (by decide)).bind yields_pure
  exact leads_digits_bind (k := fun n => do operator "]"; return Node.member v (some n) .nothing)
    hdigits hclose

theorem understood_key (hv : Understood limit 7 v ts) (hkey : Understood limit 0 key us) :
    Understood limit 7 (.property v key .nothing)
      (ts ++ "." :: Keyword.key.spelling :: "(" :: us ++ [")"]) := by
  refine understood_of_accessed fun levels rest hrest => ?_
  simp only [cons_append, append_assoc, nil_append]
  obtain ⟨hspecies, hchain⟩ := hv.accessed rfl levels
    ("." :: Keyword.key.spelling :: "(" :: (us ++ ")" :: rest))
    (stops_of_mem_joiners (show "." ∈ joiners 7 by decide) (by omega) _)
  have hpunctuated := punctuated_parenthesis (us ++ ")" :: rest)
  refine ⟨hspecies, hchain.extending (Refuses.orElse (Refuses.rewinding ?_) (Yields.rewinding ?_))⟩
  · exact (refuses_bracket (by decide) (by decide) _).bind _
  · refine (yields_operator (by decide) (by decide)).bind ((yields_keyword hpunctuated).bind ?_)
    exact (yields_parenthesized hkey levels rest).bind yields_pure

theorem understood_tighter (hprints : Prints (l + 1) e ts) (h : Understood limit (l + 1) e ts) :
    Understood limit l e ts := by
  have hl := hprints.level_le
  by_cases hchain : l < 4
  · refine ⟨fun _ levels rest hrest => ?_, fun h4 => by omega, fun h7 => by omega⟩
    rw [operandRule_eq _ hchain]
    exact (h.yields hl hrest levels).bind (leads_extend _)
  · refine understood_of_plain (by omega) (by omega) fun levels rest hrest => ?_
    have hoperand := h.yields hl (hrest.mono (Nat.le_succ l)) levels
    obtain rfl | rfl | rfl : l = 4 ∨ l = 5 ∨ l = 6 := by omega
    · have hpow : (do operator BinaryOp.pow.spelling; (rules limit levels).power).Refuses rest :=
        (refuses_operator (hrest.refuses (by omega) _ (by decide))).bind _
      exact hoperand.bind (hpow.rewinding.attempt.bind yields_pure)
    · obtain ⟨t, ts', rfl, ht⟩ := hprints.opens (by omega)
      have hsigned : ∀ start, ∀ op ∈ [UnaryOp.neg, .not],
          (signed (rules limit levels) start op).Refuses (t :: ts' ++ rest) := by
        have hspelling : ∀ op ∈ [UnaryOp.neg, .not], op.spelling ∈ ["-", "!"] ∧
            ' ' ∉ op.spelling.toList := by decide
        intro start op hop
        obtain ⟨hmem, hblank⟩ := hspelling op hop
        exact (refuses_operator ((startsWithOperator_line hblank t _).trans (ht _ hmem))).bind _
      refine Leads.mark_bind fun start => ?_
      exact (hsigned start .neg (by decide)).orElse ((hsigned start .not (by decide)).orElse hoperand)
    · have hspecies := (h.accessed rfl levels rest (hrest.mono (by omega))).1
      have hcall : (argumentList (rules limit levels)).Refuses rest :=
        (refuses_operator (hrest.refuses (by omega) "(" (by decide))).bind _
      have hvariable : (callOrReference (rules limit levels)).Yields (ts ++ rest) e rest :=
        (yields_reference hoperand).bind (hcall.rewinding.attempt.bind yields_pure)
      exact Refuses.choice (hspecies.bind _) (hvariable.choice _)

end Operands

end Grammar

open Grammar in
theorem Prints.understood {ts : List String} (h : Prints l e ts) (limit : Nat) :
    Understood limit l e ts := by
  induction h with
  | tighter h ih => exact understood_tighter h ih
  | infixed hop _ _ ihleft ihright => exact understood_infixed hop ihleft ihright
  | power _ _ ihbase ihexponent => exact understood_power ihbase ihexponent
  | signed hop h ih => exact understood_signed hop ih
  | parenthesized h ih => exact understood_parenthesized ih
  | species h ih => exact understood_species ih
  | call _ _ ihcallee ihargs => exact understood_call ihcallee ihargs
  | array h ih => exact understood_array ih
  | map _ _ ihkey ihvalue => exact understood_map ihkey ihvalue
  | integer h => exact understood_integer h
  | string h => exact understood_string h
  | boolean value => exact understood_boolean value
  | name h => exact understood_name h
  | index hv hdigits ih => exact understood_index ih hdigits
  | key hv hkey ihv ihkey => exact understood_key ihv ihkey

namespace Grammar

variable {g : Rules} {ts : List String}

/-! ### Statements -/

/-- The keywords that begin a statement and are not `pour` are refused, and no type begins either. -/
structure NoDeclaration (ts : List String) : Prop where
  keyword : ∀ k : Keyword, k ≠ .pour → (Rule.keyword k).Refuses ts
  name : identifier? (line ts) = none
  mapType : (Rule.operator "<").Refuses ts

theorem Barren.noDeclaration (h : Barren ts) : NoDeclaration ts :=
  ⟨fun k _ => h.keyword k, h.punctuated.identifier?, refuses_operator (h.operator "<" (by decide))⟩

theorem noDeclaration_pour (hts : Punctuated ts) : NoDeclaration (Keyword.pour.spelling :: ts) := by
  refine ⟨?_, ?_, ?_⟩
  · intro k hk
    refine refuses_keyword ((startsWithWord_line Keyword.pour.spelling hts).trans ?_)
    cases k <;> first | exact absurd rfl hk | decide
  · exact (identifier?_line Keyword.pour.spelling hts).trans (by decide)
  · exact refuses_operator ((startsWithOperator_line (by decide) _ ts).trans (by decide))

theorem NoDeclaration.variableDeclaration (h : NoDeclaration ts) :
    (variableDeclaration g).Refuses ts := by
  have hprimitive : (anyKeyword primitiveTypes).Refuses ts := by
    have hkeyword : ∀ k ∈ primitiveTypes, (Rule.keyword k).Refuses ts := by
      intro k hk
      refine h.keyword k ?_
      rintro rfl
      revert hk
      decide
    revert hkeyword
    generalize primitiveTypes = ks
    intro hkeyword
    induction ks with
    | nil => exact refuses_fail
    | cons k ks ih =>
      refine Refuses.orElse ((hkeyword k List.mem_cons_self).bind _) (ih ?_)
      exact fun k' hk' => hkeyword k' (List.mem_cons_of_mem k hk')
  have hconst := (h.keyword .const (by decide)).attempt
  have hstatic := (h.keyword .static (by decide)).attempt
  refine hconst.bind (hstatic.bind (Refuses.bind _ (Refuses.bind _ ?_)))
  exact Leads.mark_bind fun start => hprimitive.attempt.bind (h.mapType.bind _)

theorem NoDeclaration.leads_statement (h : NoDeclaration ts)
    (hrest : (choice [builtin g .pour, builtin g .species, giveBack g, update g, next, chop,
      expression g]).Leads ts Q) : (statement g).Leads ts Q := by
  have hreference : (reference g).Refuses ts := refuses_reference h.name
  refine Refuses.choice h.variableDeclaration (Refuses.choice (hreference.bind _) ?_)
  refine Refuses.choice ((h.keyword .switch (by decide)).bind _) ?_
  refine Refuses.choice (hreference.bind _) ?_
  refine Refuses.choice ((h.keyword .function (by decide)).bind _) ?_
  refine Refuses.choice ((h.keyword .ifThen (by decide)).bind _) ?_
  refine Refuses.choice ((h.keyword .whileLoop (by decide)).bind _) ?_
  refine Refuses.choice ((h.keyword .forLoop (by decide)).bind _) ?_
  exact Refuses.choice ((h.keyword .classDecl (by decide)).bind _) hrest

theorem Barren.statement (h : Barren ts) : (statement g).Refuses ts := by
  refine h.noDeclaration.leads_statement (refuses_choice ?_)
  simp only [List.forall_mem_cons, List.not_mem_nil, false_implies, implies_true, and_true]
  refine ⟨(h.keyword .pour).bind _, (h.keyword .species).bind _, (h.keyword .giveBack).bind _, ?_,
    (h.keyword .next).bind _, (h.keyword .chop).bind _, h.expression⟩
  exact (refuses_identifier h.punctuated.identifier?).bind _

/-- A program that pours one printed expression. -/
theorem yields_program {limit : Nat} (h : Understood limit 0 e ts) (levels : Nat) :
    (program (rules limit levels)).Yields (Keyword.pour.spelling :: "(" :: (ts ++ [")"]))
      ⟨[], some [.call (.ident Keyword.pour.spelling) (some [e]) .nothing]⟩ [] := by
  have hpunctuated := punctuated_parenthesis (ts ++ [")"])
  have hpour := noDeclaration_pour hpunctuated
  have himport : importing.Refuses (Keyword.pour.spelling :: "(" :: (ts ++ [")"])) :=
    ((hpour.keyword .receive (by decide)).bind _).rewinding
  have hstatement : (rules limit levels).statement.Yields
      (Keyword.pour.spelling :: "(" :: (ts ++ [")"]))
      (.call (.ident Keyword.pour.spelling) (some [e]) .nothing) [] := by
    cases levels with
    | zero => exact leads_tooDeep _
    | succ levels =>
      have hbuiltin : (builtin (rules limit levels) .pour).Yields
          (Keyword.pour.spelling :: "(" :: (ts ++ [")"]))
          (.call (.ident Keyword.pour.spelling) (some [e]) .nothing) [] :=
        (yields_keyword hpunctuated).bind ((yields_parenthesized h levels []).bind yields_pure)
      exact hpour.leads_statement (hbuiltin.choice _)
  have hend : (rules limit levels).statement.Refuses [] := by
    cases levels with
    | zero => exact leads_tooDeep _
    | succ => exact barren_nil.statement
  refine (himport.many _).bind ?_
  refine (hstatement.many (fun n => hend.many n) _).bind ?_
  exact yields_atEnd.bind yields_pure

theorem parseFrom_of_matched {s s' : ParseState} {p : Program}
    (h : program (rules (s.scanner.source.length + 2) (s.scanner.source.length + 2)) s =
      .matched p s') : parseFrom s = .ok p := by
  simp [parseFrom, h]

end Grammar

/-- Whatever tokens print an expression, a program that pours them is read as the single statement
that pours that expression. -/
theorem Program.parse_printed (filename : String) {e : Node} {ts : List String}
    (h : Prints 0 e ts) :
    Program.parse filename (" ".intercalate (["pour", "("] ++ ts ++ [")"])) =
      .ok ⟨[], some [.call (.ident "pour") (some [e]) .nothing]⟩ := by
  set source := " ".intercalate (["pour", "("] ++ ts ++ [")"])
  have hline : source.toList = line ("pour" :: "(" :: (ts ++ [")"])) := toList_intercalate_blank _
  have hsolid : ∀ t ∈ "pour" :: "(" :: (ts ++ [")"]), isSolid t := by
    have hmarks : isSolid "pour" ∧ isSolid "(" ∧ isSolid ")" := by decide
    rw [← List.all_eq_true]
    simp [hmarks, h.solid]
  have hahead : (Scanner.ofSource filename source).Ahead ("pour" :: "(" :: (ts ++ [")"])) :=
    Scanner.ahead_of_line hline hsolid
  have hsound := Grammar.sound_afresh (Scanner.reads_ofSource filename source)
  rw [Program.parse, Grammar.parseFrom_eq_afresh (ParseState.faithful_ofSource filename source _)
    (ParseState.sound_ofSource filename source)]
  rcases Grammar.yields_program (h.understood _) (source.toList.length + 2) _ hahead with
    htooDeep | ⟨u, -, hrun⟩
  · exact absurd htooDeep (Grammar.program_ne_tooDeep hsound (by omega))
  · exact Grammar.parseFrom_of_matched hrun

theorem Program.parse_printed_mixture :
    Program.parse "" "pour ( ( a - 1 ) - - b ^ 2 ^ c . key ( \"k\\n\" ) < f ( [ ] , sour ) && d )" =
      .ok ⟨[], some [.call (.ident "pour") (some [.binary (.binary
        (.binary (.binary (.ident "a") .sub (.intLit 1) .nothing) .sub
          (.binary (.unary .neg (.ident "b") true .nothing) .pow
            (.binary (.intLit 2) .pow (.property (.ident "c") (.stringLit "k\n") .nothing) .nothing)
            .nothing) .nothing)
        .less (.call (.ident "f") (some [.arrayLit (some []) .nothing, .ofBool false]) .nothing) .nothing)
        .and (.ident "d") .nothing]) .nothing]⟩ := by
  have hname : ∀ name ∈ ["a", "b", "c", "d", "f"], Prints 7 (.ident name) [name] := by
    intro name hname
    refine .name ?_
    revert name
    decide
  have hone : Prints 6 (.intLit 1) ["1"] := .integer (show isNumeral "1" by decide)
  have htwo : Prints 6 (.intLit 2) ["2"] := .integer (show isNumeral "2" by decide)
  have hdifference : Prints 2 (.binary (.ident "a") .sub (.intLit 1) .nothing) ["a", "-", "1"] :=
    .infixed (by decide) ((hname "a" (by decide)).looser (by omega)) (hone.looser (by omega))
  have hquotes : Quotes ['k', '\\', 'n'] ['k', '\n'] :=
    .plain (by decide) (by decide) (.short (by decide) .nil)
  have hproperty : Prints 7 (.property (.ident "c") (.stringLit "k\n") .nothing)
      ["c", ".", "key", "(", "\"k\\n\"", ")"] :=
    .key (hname "c" (by decide)) ((Prints.string hquotes).looser (by omega))
  have hnegative : Prints 5 (.unary .neg (.ident "b") true .nothing) ["-", "b"] :=
    .signed (by decide) ((hname "b" (by decide)).looser (by omega))
  have hpower := Prints.power hnegative (.power (htwo.looser (by omega)) (hproperty.looser (by omega)))
  have hargs : ∀ a ∈ [(Node.arrayLit (some []) .nothing, ["[", "]"]), (Node.ofBool false, ["sour"])],
      Prints 0 a.1 a.2 := by
    have harray : Prints 6 (.arrayLit (some []) .nothing) ["[", "]"] :=
      @Prints.array [] (by simp)
    simpa using ⟨harray.looser (by omega), (Prints.boolean false).looser (by omega)⟩
  have hcall := Prints.call (hname "f" (by decide)) hargs
  have hsum := Prints.infixed (show BinaryOp.sub ∈ leftOperators 2 by decide)
    (hdifference.looser (Nat.zero_le 2)).parenthesized.tighter.tighter.tighter.tighter hpower.tighter
  have hless := Prints.infixed (show BinaryOp.less ∈ leftOperators 1 by decide) hsum.tighter
    (hcall.looser (by omega))
  have hand := Prints.infixed (show BinaryOp.and ∈ leftOperators 0 by decide) hless.tighter
    ((hname "d" (by decide)).looser (by omega))
  refine (congrArg (Program.parse "") ?_).trans (Program.parse_printed "" hand)
  decide

end LemonScript
