import LemonScript.Grammar.Program
import LemonScript.Proofs.Grammar.Reading
import LemonScript.Proofs.Token.Request
/-!
# Rules that are alike

Several statements about parsing compare two runs: with a memory and without one, with more levels of
rules and with fewer, of a source and of what it was before a comment was put in front. A likeness says
what is compared. It has to be kept by the few ways in which rules are put together and by the
questions for tokens; then it is kept by all rules of the grammar, and this is shown here once for all
likenesses. A rule that is nested too deeply is alike to everything.
-/

namespace LemonScript

open Rule

/-- A way to compare two rules. -/
structure Likeness where
  Alike {α : Type} : Rule α → Rule α → Prop
  Place : Cursor → Cursor → Prop
  alike_pure {α : Type} (a : α) : Alike (pure a : Rule α) (pure a)
  alike_fail {α : Type} : Alike (fail : Rule α) fail
  alike_abort {α : Type} (reason : Abort) : Alike (abort reason : Rule α) (abort reason)
  tooDeep_left {α : Type} (r : Rule α) : Alike (abort .tooDeep) r
  tooDeep_right {α : Type} {r r' : Rule α} : Alike r r' → Alike r (abort .tooDeep)
  alike_after {α β : Type} {r r' : Rule α} {hit hit' : α → Rule β} {miss miss' : Rule β} :
    Alike r r' → (∀ a, Alike (hit a) (hit' a)) → Alike miss miss' →
    Alike (after r hit miss) (after r' hit' miss')
  alike_mark {α : Type} {f f' : Cursor → Rule α} :
    (∀ c c', Place c c' → Alike (f c) (f' c')) → Alike (mark >>= f) (mark >>= f')
  alike_failTo {α : Type} {c c' : Cursor} : Place c c' → Alike (failTo c : Rule α) (failTo c')
  alike_test {f : Scanner → Bool × Scanner} : Scanner.Asked id f → Alike (ofTest f) (ofTest f)
  alike_scan {α β γ : Type} {view : α → γ} {f : Scanner → Option α × Scanner} {h h' : α → Rule β} :
    Scanner.Asked (Option.map view) f → (∀ a a', view a = view a' → Alike (h a) (h' a')) →
    Alike (ofScan f >>= h) (ofScan f >>= h')

namespace Likeness

variable {L : Likeness} {α β : Type} {r r' : Rule α}

/-! ### Combined rules -/

theorem Alike.bind {f f' : α → Rule β} (hr : L.Alike r r') (hf : ∀ a, L.Alike (f a) (f' a)) :
    L.Alike (r >>= f) (r' >>= f') := by
  rw [bind_eq_after, bind_eq_after]
  exact L.alike_after hr hf L.alike_fail

theorem Alike.orElse {q q' : Rule α} (hr : L.Alike r r') (hq : L.Alike q q') :
    L.Alike (r <|> q) (r' <|> q') := by
  rw [orElse_eq_after, orElse_eq_after]
  exact L.alike_after hr L.alike_pure hq

theorem Alike.attempt (hr : L.Alike r r') : L.Alike (attempt r) (attempt r') := by
  rw [attempt_eq_after, attempt_eq_after]
  exact L.alike_after hr (fun a => L.alike_pure (some a)) (L.alike_pure none)

theorem Alike.onFailure {c c' : Cursor} (hr : L.Alike r r') (hc : L.Place c c') :
    L.Alike (onFailure c r) (onFailure c' r') := by
  rw [onFailure_eq_after, onFailure_eq_after]
  exact L.alike_after hr L.alike_pure (L.alike_failTo hc)

theorem Alike.rewinding (hr : L.Alike r r') : L.Alike (rewinding r) (rewinding r') :=
  L.alike_mark fun _ _ hc => hr.onFailure hc

theorem Alike.many (hr : L.Alike r r') (n n' : Nat) : L.Alike (many r n) (many r' n') := by
  induction n generalizing n' with
  | zero => exact L.tooDeep_left _
  | succ n ih =>
    have hsucc : ∀ n', L.Alike (Rule.many r (n + 1)) (Rule.many r' (n' + 1)) := by
      intro n'
      rw [many_succ_eq_after, many_succ_eq_after]
      refine L.alike_after hr (fun a => ?_) (L.alike_pure [])
      exact L.alike_after (ih n') (fun as => L.alike_pure (a :: as)) L.alike_fail
    cases n' with
    | zero => exact L.tooDeep_right (hsucc 0)
    | succ n' => exact hsucc n'

theorem alike_extend {q q' : α → Rule α} (hq : ∀ a, L.Alike (q a) (q' a)) (n n' : Nat) (a : α) :
    L.Alike (extend q n a) (extend q' n' a) := by
  induction n generalizing n' a with
  | zero => exact L.tooDeep_left _
  | succ n ih =>
    have hsucc : ∀ n', L.Alike (extend q (n + 1) a) (extend q' (n' + 1) a) := by
      intro n'
      rw [extend_succ_eq_after, extend_succ_eq_after]
      exact L.alike_after (hq a) (ih n') (L.alike_pure a)
    cases n' with
    | zero => exact L.tooDeep_right (hsucc 0)
    | succ n' => exact hsucc n'

theorem alike_choice {rs rs' : List (Rule α)} (h : List.Forall₂ L.Alike rs rs') :
    L.Alike (choice rs) (choice rs') := by
  induction h with
  | nil => exact L.alike_fail
  | cons hr hrs ih => exact hr.rewinding.orElse ih

/-! ### Tokens -/

theorem alike_keyword (k : Keyword) : L.Alike (keyword k) (keyword k) :=
  L.alike_test (Scanner.asked_keyword k)

theorem alike_operator {op : String} (hop : op ≠ "") : L.Alike (operator op) (operator op) :=
  L.alike_test (Scanner.asked_operator hop)

theorem alike_past {op : String} {k k' : Unit → Rule α} (hop : op ≠ "")
    (h : L.Alike (k ()) (k' ())) : L.Alike (operator op >>= k) (operator op >>= k') :=
  (alike_operator hop).bind fun _ => h

theorem alike_identifier : L.Alike identifier identifier :=
  L.alike_scan Scanner.asked_identifier fun _ _ ht => ht ▸ L.alike_pure _

theorem alike_anyKeyword (ks : List Keyword) : L.Alike (anyKeyword ks) (anyKeyword ks) := by
  induction ks with
  | nil => exact L.alike_fail
  | cons k ks ih => exact ((alike_keyword k).bind fun _ => L.alike_pure k).orElse ih

theorem alike_anyOperator {ops : List BinaryOp} (hops : ∀ op ∈ ops, op.spelling ≠ "") :
    L.Alike (anyOperator ops) (anyOperator ops) := by
  induction ops with
  | nil => exact L.alike_fail
  | cons op ops ih =>
    refine Alike.orElse ?_ (ih fun op' h => hops op' (List.mem_cons_of_mem op h))
    exact (alike_operator (hops op List.mem_cons_self)).bind fun _ => L.alike_pure op

theorem Alike.separated {item item' : Rule α} (h : L.Alike item item') (n n' : Nat) :
    L.Alike (separated item n) (separated item' n') := by
  refine h.attempt.bind fun first => ?_
  cases first with
  | none => exact L.alike_pure []
  | some first =>
    have hmore : L.Alike (do let start ← mark; operator ","; Rule.onFailure start item)
        (do let start ← mark; operator ","; Rule.onFailure start item') :=
      L.alike_mark fun _ _ hstart => alike_past (by decide) <| h.onFailure hstart
    exact (hmore.many n n').bind fun rest => L.alike_pure (first :: rest)

end Likeness

/-- The rules one level further in are alike. How often a rule may be repeated does not matter. -/
structure Rules.Alike (L : Likeness) (g g' : Rules) : Prop where
  type : L.Alike g.type g'.type
  unary : L.Alike g.unary g'.unary
  power : L.Alike g.power g'.power
  expression : L.Alike g.expression g'.expression
  statement : L.Alike g.statement g'.statement

namespace Grammar

open Likeness

variable {L : Likeness} {g g' : Rules}

section Inner

variable (hg : g.Alike L g')

include hg

/-! ### Types -/

theorem alike_type : L.Alike (type g) (type g') := by
  have helement : L.Alike (elementType g) (elementType g') := by
    refine L.alike_mark fun _ _ hstart => ?_
    refine (alike_anyKeyword primitiveTypes).attempt.bind fun k => ?_
    cases k with
    | some k => exact L.alike_pure _
    | none =>
      refine alike_past (by decide) <| Alike.onFailure ?_ hstart
      refine hg.type.bind fun key => alike_past (by decide) ?_
      exact hg.type.bind fun value => alike_past (by decide) <| L.alike_pure _
  refine helement.bind fun element => ?_
  exact alike_extend (fun t => (alike_operator (by decide)).bind fun _ => L.alike_pure _) _ _ _

theorem alike_bindingType : L.Alike (bindingType g) (bindingType g') :=
  (alike_type hg).orElse (alike_identifier.bind fun _ => L.alike_pure _)

/-! ### Expressions -/

theorem alike_parenthesized : L.Alike (parenthesized g) (parenthesized g') := by
  refine alike_past (by decide) <| hg.expression.bind fun e => ?_
  exact alike_past (by decide) <| L.alike_pure e

theorem alike_builtin (k : Keyword) : L.Alike (builtin g k) (builtin g' k) :=
  (alike_keyword k).bind fun _ => (alike_parenthesized hg).bind fun _ => L.alike_pure _

theorem alike_accessors : L.Alike (accessors g) (accessors g') := by
  have hindex : ∀ v, L.Alike (indexAccess v) (indexAccess v) := by
    intro v
    refine alike_past (by decide) ?_
    refine L.alike_scan Scanner.asked_digits fun index index' htext => ?_
    rw [htext]
    exact alike_past (by decide) <| L.alike_pure _
  have hkey : ∀ v, L.Alike (keyAccess g v) (keyAccess g' v) := by
    intro v
    refine alike_past (by decide) <| (alike_keyword .key).bind fun _ => ?_
    exact (alike_parenthesized hg).bind fun _ => L.alike_pure _
  refine alike_identifier.bind fun name => ?_
  exact alike_extend (fun v => (hindex v).rewinding.orElse (hkey v).rewinding) _ _ _

theorem alike_arguments : L.Alike (arguments g) (arguments g') := hg.expression.separated _ _

theorem alike_argumentList : L.Alike (argumentList g) (argumentList g') := by
  refine alike_past (by decide) <| (alike_arguments hg).bind fun args => ?_
  exact alike_past (by decide) <| L.alike_pure args

theorem alike_arrayLiteral : L.Alike (arrayLiteral g) (arrayLiteral g') := by
  refine alike_past (by decide) <| (alike_arguments hg).bind fun elements => ?_
  exact alike_past (by decide) <| L.alike_pure _

theorem alike_keyValue : L.Alike (keyValue g) (keyValue g') := by
  refine Alike.rewinding (hg.expression.bind fun key => ?_)
  refine alike_past (by decide) ?_
  exact hg.expression.bind fun value => L.alike_pure _

theorem alike_mapLiteral : L.Alike (mapLiteral g) (mapLiteral g') := by
  refine alike_past (by decide) ?_
  refine ((alike_keyValue hg).separated _ _).bind fun entries => ?_
  exact alike_past (by decide) <| L.alike_pure _

omit hg in
theorem alike_number : L.Alike number number := by
  refine L.alike_scan Scanner.asked_number ?_
  rintro ⟨t, n⟩ ⟨t', n'⟩ hview
  obtain ⟨htext, rfl⟩ := Prod.mk.inj hview
  dsimp only at htext ⊢
  rw [htext]
  split
  · exact L.alike_pure _
  · split
    · exact L.alike_pure _
    · exact L.alike_abort _

omit hg in
theorem alike_stringLiteral : L.Alike stringLiteral stringLiteral :=
  L.alike_scan Scanner.asked_string fun _ _ ht => ht ▸ L.alike_pure _

omit hg in
theorem alike_boolean : L.Alike boolean boolean := by
  refine Alike.orElse ?_ ?_
  · exact (alike_keyword .sweet).bind fun _ => L.alike_pure _
  · exact (alike_keyword .sour).bind fun _ => L.alike_pure _

/-! ### Operators

What is remembered of a variable is for each likeness to compare. -/

variable (href : L.Alike (reference g) (reference g'))

include href

theorem alike_callOrReference : L.Alike (callOrReference g) (callOrReference g') := by
  refine href.bind fun v => (alike_argumentList hg).rewinding.attempt.bind fun args => ?_
  cases args with
  | none => exact L.alike_pure v
  | some => exact L.alike_pure _

theorem alike_primary : L.Alike (primary g) (primary g') := by
  refine alike_choice ?_
  refine .cons (alike_builtin hg .species) (.cons (alike_callOrReference hg href) ?_)
  refine .cons (alike_parenthesized hg) (.cons (alike_arrayLiteral hg) ?_)
  refine .cons (alike_mapLiteral hg) (.cons alike_number ?_)
  exact .cons alike_stringLiteral (.cons alike_boolean .nil)

theorem alike_unary : L.Alike (unary g) (unary g') := by
  refine L.alike_mark fun start start' hstart => ?_
  have hsigned : ∀ op : UnaryOp, op.spelling ≠ "" →
      L.Alike (signed g start op) (signed g' start' op) := by
    intro op hop
    refine (alike_operator hop).bind fun _ => Alike.onFailure ?_ hstart
    exact hg.unary.bind fun operand => L.alike_pure _
  exact (hsigned .neg (by decide)).orElse ((hsigned .not (by decide)).orElse (alike_primary hg href))

theorem alike_power : L.Alike (power g) (power g') := by
  have hexponent : L.Alike (do operator BinaryOp.pow.spelling; g.power)
      (do operator BinaryOp.pow.spelling; g'.power) :=
    alike_past (by decide) <| hg.power
  refine (alike_unary hg href).bind fun base => hexponent.rewinding.attempt.bind fun exponent => ?_
  cases exponent with
  | none => exact L.alike_pure base
  | some => exact L.alike_pure _

omit hg href in
theorem alike_leftChain {ops : List BinaryOp} (hops : ∀ op ∈ ops, op.spelling ≠ "")
    {operand operand' : Rule Node} (hoperand : L.Alike operand operand') :
    L.Alike (leftChain g ops operand) (leftChain g' ops operand') := by
  refine hoperand.bind fun first => alike_extend (fun left => ?_) _ _ first
  refine L.alike_mark fun _ _ hstart => (alike_anyOperator hops).bind fun op => ?_
  exact Alike.onFailure (hoperand.bind fun right => L.alike_pure _) hstart

theorem alike_additive : L.Alike (additive g) (additive g') :=
  alike_leftChain (by decide) (alike_leftChain (by decide) (alike_power hg href))

theorem alike_expression : L.Alike (expression g) (expression g') :=
  alike_leftChain (by decide) (alike_leftChain (by decide) (alike_additive hg href))

/-! ### Statements -/

omit href in
theorem alike_statements : L.Alike (statements g) (statements g') := hg.statement.many _ _

theorem alike_variableDeclaration : L.Alike (variableDeclaration g) (variableDeclaration g') := by
  have hinit : L.Alike (do operator "="; expression g) (do operator "="; expression g') :=
    alike_past (by decide) <| alike_expression hg href
  refine (alike_keyword .const).attempt.bind fun isConst => ?_
  refine (alike_keyword .static).attempt.bind fun isStatic => ?_
  refine (alike_type hg).bind fun type => alike_identifier.bind fun name => ?_
  exact hinit.rewinding.attempt.bind fun init => L.alike_pure _

theorem alike_assignment : L.Alike (assignment g) (assignment g') := by
  refine href.bind fun target => alike_past (by decide) ?_
  exact (alike_expression hg href).bind fun e => L.alike_pure _

theorem alike_switch : L.Alike (switch g) (switch g') := by
  have hcase : L.Alike (switchCase g) (switchCase g') := by
    refine L.alike_mark fun _ _ hstart => (alike_keyword .case).bind fun _ => ?_
    refine ((alike_expression hg href).onFailure hstart).bind fun guard => ?_
    exact (alike_statements hg).bind fun body => L.alike_pure _
  have hdefault : L.Alike (do keyword .default; statements g) (do keyword .default; statements g') :=
    (alike_keyword .default).bind fun _ => alike_statements hg
  refine (alike_keyword .switch).bind fun _ => alike_past (by decide) ?_
  refine href.bind fun scrutinee => alike_past (by decide) ?_
  refine (alike_keyword .beginBlock).bind fun _ => (hcase.many _ _).bind fun cases => ?_
  dsimp only
  split
  · exact L.alike_fail
  · refine hdefault.attempt.bind fun default => ?_
    exact (alike_keyword .endBlock).bind fun _ => L.alike_pure _

theorem alike_call : L.Alike (call g) (call g') :=
  href.bind fun _ => (alike_argumentList hg).bind fun _ => L.alike_pure _

omit href in
theorem alike_parameter : L.Alike (parameter g) (parameter g') :=
  Alike.rewinding ((alike_bindingType hg).bind fun _ =>
    alike_identifier.bind fun _ => L.alike_pure _)

omit href in
theorem alike_parameters : L.Alike (parameters g) (parameters g') :=
  (alike_parameter hg).separated _ _

omit href in
theorem alike_block (mayBeEmpty : Bool) : L.Alike (block g mayBeEmpty) (block g' mayBeEmpty) := by
  refine (alike_keyword .beginBlock).bind fun _ => (alike_statements hg).bind fun body => ?_
  dsimp only
  split
  · exact L.alike_fail
  · exact (alike_keyword .endBlock).bind fun _ => L.alike_pure body

omit href in
theorem alike_functionDeclaration : L.Alike (functionDeclaration g) (functionDeclaration g') := by
  have hresult : L.Alike
      ((do keyword .voidType; return .named Keyword.voidType.spelling) <|> bindingType g)
      ((do keyword .voidType; return .named Keyword.voidType.spelling) <|> bindingType g') :=
    ((alike_keyword .voidType).bind fun _ => L.alike_pure _).orElse (alike_bindingType hg)
  refine (alike_keyword .function).bind fun _ => ?_
  refine (alike_keyword .static).attempt.bind fun isStatic => hresult.bind fun result => ?_
  refine alike_identifier.bind fun name => alike_past (by decide) ?_
  refine (alike_parameters hg).bind fun params => alike_past (by decide) ?_
  exact (alike_block hg true).bind fun body => L.alike_pure _

omit href in
theorem alike_guardedBlock : L.Alike (guardedBlock g) (guardedBlock g') := by
  refine (alike_parenthesized hg).bind fun guard => ?_
  exact (alike_block hg false).bind fun body => L.alike_pure _

omit href in
theorem alike_ifElse : L.Alike (ifElse g) (ifElse g') := by
  have hother : L.Alike
      (do let start ← mark; keyword .elseIf; onFailure start (guardedBlock g))
      (do let start ← mark; keyword .elseIf; onFailure start (guardedBlock g')) :=
    L.alike_mark fun _ _ hstart => (alike_keyword .elseIf).bind fun _ =>
      (alike_guardedBlock hg).onFailure hstart
  refine (alike_keyword .ifThen).bind fun _ => (alike_guardedBlock hg).bind fun first => ?_
  refine (hother.many _ _).bind fun others => L.alike_mark fun _ _ hstart => ?_
  refine Alike.bind (Alike.attempt ?_) fun otherwise => L.alike_pure _
  exact (alike_keyword .otherwise).bind fun _ => (alike_block hg false).onFailure hstart

omit href in
theorem alike_whileLoop : L.Alike (whileLoop g) (whileLoop g') :=
  (alike_keyword .whileLoop).bind fun _ => (alike_guardedBlock hg).bind fun _ => L.alike_pure _

theorem alike_update : L.Alike (update g) (update g') := by
  have hcompound : ∀ target (op : BinaryOp), op.spelling ≠ "" →
      L.Alike (compound g target op) (compound g' target op) := by
    intro target op hop
    refine Alike.rewinding ((alike_operator hop).bind fun _ => ?_)
    exact (alike_additive hg href).bind fun e => L.alike_pure _
  have hcrement : ∀ target (op : UnaryOp), op.spelling ≠ "" →
      L.Alike (crement target op) (crement target op) := by
    intro target op hop
    exact (alike_operator hop).bind fun _ => L.alike_pure _
  refine alike_identifier.bind fun name => ?_
  refine (hcompound _ .addAssign (by decide)).orElse ?_
  refine (hcompound _ .subAssign (by decide)).orElse ?_
  exact (hcrement _ .increment (by decide)).orElse (hcrement _ .decrement (by decide))

theorem alike_forLoop : L.Alike (forLoop g) (forLoop g') := by
  have hsemicolon : L.Alike (operator ";") (operator ";") := alike_operator (by decide)
  refine (alike_keyword .forLoop).bind fun _ => alike_past (by decide) ?_
  refine (alike_keyword .intType).bind fun _ => alike_identifier.bind fun name => ?_
  refine alike_past (by decide) ?_
  refine (alike_expression hg href).bind fun init => hsemicolon.bind fun _ => ?_
  refine (alike_expression hg href).bind fun condition => hsemicolon.bind fun _ => ?_
  refine (alike_update hg href).bind fun step => alike_past (by decide) ?_
  exact (alike_block hg false).bind fun body => L.alike_pure _

omit href in
theorem alike_classDeclaration : L.Alike (classDeclaration g) (classDeclaration g') := by
  have hparent : ∀ start start' : Cursor, L.Place start start' → L.Alike
      (do keyword .extending; onFailure start identifier)
      (do keyword .extending; onFailure start' identifier) := by
    intro start start' hstart
    exact (alike_keyword .extending).bind fun _ => alike_identifier.onFailure hstart
  refine (alike_keyword .classDecl).bind fun _ => alike_identifier.bind fun name => ?_
  refine L.alike_mark fun start start' hstart => (hparent start start' hstart).attempt.bind fun parent => ?_
  refine (alike_keyword .beginBlock).bind fun _ => (alike_keyword .plant).bind fun _ => ?_
  refine alike_past (by decide) <| (alike_parameters hg).bind fun params => ?_
  refine alike_past (by decide) <| (alike_block hg false).bind fun plant => ?_
  refine (alike_statements hg).bind fun body => ?_
  exact (alike_keyword .endBlock).bind fun _ => L.alike_pure _

theorem alike_giveBack : L.Alike (giveBack g) (giveBack g') := by
  refine (alike_keyword .giveBack).bind fun _ => ?_
  refine (alike_expression hg href).rewinding.attempt.bind fun e => ?_
  cases e with
  | none | some => exact L.alike_pure _

theorem alike_statement : L.Alike (statement g) (statement g') := by
  refine alike_choice ?_
  refine .cons (alike_variableDeclaration hg href) (.cons (alike_assignment hg href) ?_)
  refine .cons (alike_switch hg href) (.cons (alike_call hg href) ?_)
  refine .cons (alike_functionDeclaration hg) (.cons (alike_ifElse hg) ?_)
  refine .cons (alike_whileLoop hg) (.cons (alike_forLoop hg href) ?_)
  refine .cons (alike_classDeclaration hg) (.cons (alike_builtin hg .pour) ?_)
  refine .cons (alike_builtin hg .species) (.cons (alike_giveBack hg href) ?_)
  refine .cons (alike_update hg href) ?_
  refine .cons ((alike_keyword .next).bind fun _ => L.alike_pure _) ?_
  refine .cons ((alike_keyword .chop).bind fun _ => L.alike_pure _) ?_
  exact .cons (alike_expression hg href) .nil

theorem alike_around : (around g).Alike L (around g') where
  type := alike_type hg
  unary := alike_unary hg href
  power := alike_power hg href
  expression := alike_expression hg href
  statement := alike_statement hg href

/-! ### Programs -/

omit href in
theorem alike_program : L.Alike (program g) (program g') := by
  have himport : L.Alike importing importing := by
    refine Alike.rewinding ((alike_keyword .receive).bind fun _ => ?_)
    refine alike_identifier.bind fun name => (alike_keyword .source).bind fun _ => ?_
    exact alike_identifier.bind fun origin => L.alike_pure _
  refine (himport.many _ _).bind fun imports => (alike_statements hg).bind fun body => ?_
  exact (L.alike_test Scanner.asked_atEnd).bind fun _ => L.alike_pure _

end Inner

/-- The rules of each level are alike to those of every other, whatever the two may be, if the rules for
variables are. -/
theorem alike_rules {limit limit' : Nat}
    (href : ∀ {g : Rules}, (∀ levels, g.Alike L (rules limit' levels)) →
      ∀ levels, L.Alike (reference g) (reference (rules limit' levels)))
    (levels levels' : Nat) : (rules limit levels).Alike L (rules limit' levels') := by
  induction levels generalizing levels' with
  | zero => constructor <;> exact L.tooDeep_left _
  | succ levels ih =>
    have hsucc : ∀ n, (rules limit (levels + 1)).Alike L (rules limit' (n + 1)) :=
      fun n => alike_around (ih n) (href ih n)
    cases levels' with
    | zero =>
      -- the rules of the left side stay in their states whatever they are compared with
      have h := hsucc 0
      exact ⟨L.tooDeep_right h.type, L.tooDeep_right h.unary, L.tooDeep_right h.power,
        L.tooDeep_right h.expression, L.tooDeep_right h.statement⟩
    | succ levels' => exact hsucc levels'

end Grammar

end LemonScript
