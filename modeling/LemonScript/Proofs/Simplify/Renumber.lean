import LemonScript.Proofs.Simplify.Total
import LemonScript.Proofs.Syntax.Renumber
/-!
# Simplification only compares numbers

A tree with other numbers is simplified to the simplified tree with other numbers. The numbers of
entities are looked at in three places: an assignment of an entity to itself is dropped, the variable of
a loop is recognised, and a literal is put in its place. In all of them a number is only compared with
another one. This holds for every tree, and a tree that cannot be simplified has the same fault.
-/

namespace LemonScript

namespace Simplify

open Node (renumber renumberAll renumberIn renumberArms renumberEntries)

variable (r : Renumbering)

/-- If a step gives the image of what another one gives, and the steps behind them agree on that, then
both together give the image too. -/
theorem bind_eq_map {ε α α' β β' : Type} {f : α → α'} {h : β → β'} {m : Except ε α}
    {m' : Except ε α'} {g : α → Except ε β} {g' : α' → Except ε β'} (hm : m' = m.map f)
    (hg : ∀ a, g' (f a) = (g a).map h) : (m' >>= g') = (m >>= g).map h := by
  subst hm
  cases m with
  | error e => rfl
  | ok a => exact hg a

/-! ### Operators on literals -/

@[simp] theorem isNumber_renumber (n : Node) : isNumber (n.renumber r) = isNumber n := by
  cases n <;> rfl

@[simp] theorem isZero_renumber (n : Node) : isZero (n.renumber r) = isZero n := by
  cases n <;> rfl

@[simp] theorem isOne_renumber (n : Node) : isOne (n.renumber r) = isOne n := by
  cases n <;> rfl

@[simp] theorem isBool_renumber (value : Bool) (n : Node) : isBool value (n.renumber r) = isBool value n := by
  cases n <;> rfl

theorem oneLike_renumber (n : Node) : oneLike (n.renumber r) = (oneLike n).renumber r := by
  cases n <;> rfl

theorem map_foldInts (a : Int) (op : BinaryOp) (b : Int) :
    (foldInts a op b).map (renumber r) = foldInts a op b := by
  unfold foldInts
  split
  · rfl
  split
  · rfl
  · rw [Option.map_map]
    rfl

theorem map_foldFloats (a : Float) (op : BinaryOp) (b : Float) :
    (foldFloats a op b).map (renumber r) = foldFloats a op b := by
  unfold foldFloats
  split
  · split <;> rfl
  · cases compareFloats? a b with
    | none => rfl
    | some o => cases h : op.comparison? o <;> simp [h]

theorem foldedNumbers_renumber (left : Node) (op : BinaryOp) (right : Node) :
    foldedNumbers (left.renumber r) op (right.renumber r) = (foldedNumbers left op right).map (renumber r) := by
  cases left with
  | intLit a =>
    cases right with
    | intLit b => exact (map_foldInts r a op b).symm
    | floatLit y => exact (map_foldFloats r _ op y).symm
    | _ => rfl
  | floatLit x =>
    cases right with
    | intLit b => exact (map_foldFloats r x op _).symm
    | floatLit y => exact (map_foldFloats r x op y).symm
    | _ => rfl
  | _ => rfl

theorem foldOther_renumber (left : Node) (op : BinaryOp) (right : Node) :
    foldOther (left.renumber r) op (right.renumber r) = (foldOther left op right).map (renumber r) := by
  cases left with
  | stringLit a =>
    cases right with
    | stringLit | _ => cases op <;> rfl
  | boolLit =>
    cases right with
    | boolLit | _ => cases op <;> rfl
  | _ => rfl

theorem combineLogic_renumber (unit : Bool) (left : Node) (op : BinaryOp) (right : Node) (type : Ty) :
    combineLogic unit (left.renumber r) op (right.renumber r) type =
      (combineLogic unit left op right type).renumber r := by
  simp only [combineLogic, isBool_renumber, apply_ite (renumber r)]
  rfl

theorem numberOnLeft_renumber (left : Node) (op : BinaryOp) (right : Node) (type : Ty) :
    numberOnLeft (left.renumber r) op (right.renumber r) type =
      (numberOnLeft left op right type).renumber r := by
  cases op <;>
    simp only [numberOnLeft, isZero_renumber, isOne_renumber, apply_ite (renumber r)] <;> rfl

theorem numberOnRight_renumber (left : Node) (op : BinaryOp) (right : Node) (type : Ty) :
    numberOnRight (left.renumber r) op (right.renumber r) type =
      (numberOnRight left op right type).renumber r := by
  cases op <;>
    simp only [numberOnRight, isZero_renumber, isOne_renumber, oneLike_renumber,
      apply_ite (renumber r)] <;> rfl

theorem combine_renumber (left : Node) (op : BinaryOp) (right : Node) (type : Ty) :
    combine (left.renumber r) op (right.renumber r) type = (combine left op right type).renumber r := by
  cases op
  case and => exact combineLogic_renumber r true left .and right type
  case or => exact combineLogic_renumber r false left .or right type
  all_goals
    simp only [combine, combineOther, isNumber_renumber, foldedNumbers_renumber, foldOther_renumber,
      numberOnLeft_renumber, numberOnRight_renumber]
    split
    · cases foldedNumbers left _ right <;> rfl
    · cases foldOther left _ right with
      | some => rfl
      | none =>
        simp only [Option.map_none, apply_ite (renumber r)]
        rfl

theorem operation_renumber (left : Node) (op : BinaryOp) (right : Node) (type : Ty) :
    operation (left.renumber r) op (right.renumber r) type = (operation left op right type).map (renumber r) := by
  rw [operation_eq, operation_eq, combine_renumber]
  rfl

theorem combineUnary_renumber (op : UnaryOp) (operand : Node) (leading : Bool) (type : Ty) :
    combineUnary op (operand.renumber r) leading type = (combineUnary op operand leading type).renumber r := by
  cases operand <;> cases op <;> rfl

/-! ### Expressions -/

mutual

theorem expression_renumber (n : Node) : expression (n.renumber r) = (expression n).map (renumber r) := by
  cases n with
  | binary left op right type =>
    apply bind_eq_map (expression_renumber left)
    intro left'
    apply bind_eq_map (expression_renumber right)
    intro right'
    cases op
    case addAssign | subAssign => rfl
    all_goals exact operation_renumber r left' _ right' type
  | unary op operand leading type =>
    apply bind_eq_map (expression_renumber operand)
    intro operand'
    exact congrArg Except.ok (combineUnary_renumber r op operand' leading type)
  | call callee args =>
    apply bind_eq_map (expression_renumber callee)
    intro callee'
    apply bind_eq_map (optionalExpressions_renumber args)
    intro args'
    rfl
  | arrayLit elements =>
    apply bind_eq_map (optionalExpressions_renumber elements)
    intro elements'
    rfl
  | mapLit entries =>
    apply bind_eq_map (mapEntries_renumber entries)
    intro entries'
    rfl
  | member array =>
    apply bind_eq_map (expression_renumber array)
    intro array'
    rfl
  | property map key =>
    apply bind_eq_map (expression_renumber map)
    intro map'
    apply bind_eq_map (expression_renumber key)
    intro key'
    rfl
  | _ => rfl

theorem expressions_renumber : ∀ l : List Node,
    expressions (renumberAll r l) = (expressions l).map (renumberAll r)
  | [] => rfl
  | n :: ns => by
    apply bind_eq_map (expression_renumber n)
    intro n'
    apply bind_eq_map (expressions_renumber ns)
    intro ns'
    rfl

theorem optionalExpressions_renumber : ∀ l : Option (List Node),
    optionalExpressions (renumberIn r l) = (optionalExpressions l).map (renumberIn r)
  | none => rfl
  | some ns => by
    apply bind_eq_map (expressions_renumber ns)
    intro ns'
    rfl

theorem mapEntries_renumber : ∀ l : List (Entry Node),
    mapEntries (renumberEntries r l) = (mapEntries l).map (renumberEntries r)
  | [] => rfl
  | ⟨key, value⟩ :: rest => by
    apply bind_eq_map (expression_renumber key)
    intro key'
    apply bind_eq_map (expression_renumber value)
    intro value'
    apply bind_eq_map (mapEntries_renumber rest)
    intro rest'
    rfl

end

/-! ### Loops that are written out -/

@[simp] theorem isLoopVariable_renumber (entity : Option Variable) (n : Node) :
    isLoopVariable (entity.map (Variable.renumber r)) (n.renumber r) = isLoopVariable entity n := by
  cases n with
  | var v =>
    cases entity with
    | none => rfl
    | some e => exact r.beq_iff e.id v.id
  | _ => rfl

theorem stepOf?_renumber (entity : Option Variable) (step : Node) :
    stepOf? (entity.map (Variable.renumber r)) (step.renumber r) = stepOf? entity step := by
  cases step with
  | unary => simp only [renumber, stepOf?, isLoopVariable_renumber]
  | binary _ _ right =>
    cases right with
    | intLit value =>
      by_cases h : value = 1
      · subst h
        simp only [renumber, stepOf?, isLoopVariable_renumber]
      · simp [renumber, stepOf?, h]
    | _ => rfl
  | _ => rfl

theorem iterations?_renumber (entity : Option Variable) (init condition step : Node) :
    iterations? (entity.map (Variable.renumber r)) (init.renumber r) (condition.renumber r)
      (step.renumber r) = iterations? entity init condition step := by
  cases init with
  | intLit =>
    cases condition with
    | binary _ _ right =>
      cases right with
      | intLit => simp only [renumber, iterations?, isLoopVariable_renumber, stepOf?_renumber]
      | _ => rfl
    | _ => rfl
  | _ => rfl

@[simp] theorem copyable_renumber (entity : Option Variable) (n : Node) :
    copyable (entity.map (Variable.renumber r)) (n.renumber r) = copyable entity n := by
  cases n with
  | assign => simp only [renumber, copyable, isLoopVariable_renumber]
  | unary op => cases op <;> simp only [renumber, copyable, isLoopVariable_renumber]
  | binary _ op => cases op <;> simp only [renumber, copyable, isLoopVariable_renumber]
  | _ => rfl

theorem all_copyable_renumber (entity : Option Variable) (l : List Node) :
    (renumberAll r l).all (copyable (entity.map (Variable.renumber r))) = l.all (copyable entity) := by
  induction l with
  | nil => rfl
  | cons n l ih => rw [renumberAll, List.all_cons, List.all_cons, copyable_renumber, ih]

variable (id value : Int)

mutual

theorem substitute_renumber (n : Node) :
    substitute (r id) value (n.renumber r) = (substitute id value n).map (renumber r) := by
  cases n with
  | var v =>
    have hid : ((v.renumber r).id == r id) = (v.id == id) := r.beq_iff v.id id
    rw [renumber, substitute, substitute, hid]
    cases v.id == id <;> rfl
  | assign target source =>
    apply bind_eq_map (substitute_renumber target)
    intro target'
    apply bind_eq_map (substitute_renumber source)
    intro source'
    rfl
  | giveBack e =>
    apply bind_eq_map (substitute_renumber e)
    intro e'
    rfl
  | binary left _ right =>
    apply bind_eq_map (substitute_renumber left)
    intro left'
    apply bind_eq_map (substitute_renumber right)
    intro right'
    rfl
  | unary _ operand =>
    apply bind_eq_map (substitute_renumber operand)
    intro operand'
    rfl
  | call callee args =>
    apply bind_eq_map (substitute_renumber callee)
    intro callee'
    apply bind_eq_map (substituteOptional_renumber args)
    intro args'
    rfl
  | arrayLit elements =>
    apply bind_eq_map (substituteOptional_renumber elements)
    intro elements'
    rfl
  | mapLit entries =>
    apply bind_eq_map (substituteEntries_renumber entries)
    intro entries'
    rfl
  | member array =>
    apply bind_eq_map (substitute_renumber array)
    intro array'
    rfl
  | property map key =>
    apply bind_eq_map (substitute_renumber map)
    intro map'
    apply bind_eq_map (substitute_renumber key)
    intro key'
    rfl
  | _ => rfl

theorem substituteAll_renumber : ∀ l : List Node,
    substituteAll (r id) value (renumberAll r l) = (substituteAll id value l).map (renumberAll r)
  | [] => rfl
  | n :: ns => by
    apply bind_eq_map (substitute_renumber n)
    intro n'
    apply bind_eq_map (substituteAll_renumber ns)
    intro ns'
    rfl

theorem substituteOptional_renumber : ∀ l : Option (List Node),
    substituteOptional (r id) value (renumberIn r l) = (substituteOptional id value l).map (renumberIn r)
  | none => rfl
  | some ns => by
    apply bind_eq_map (substituteAll_renumber ns)
    intro ns'
    rfl

theorem substituteEntries_renumber : ∀ l : List (Entry Node),
    substituteEntries (r id) value (renumberEntries r l) =
      (substituteEntries id value l).map (renumberEntries r)
  | [] => rfl
  | ⟨key, content⟩ :: rest => by
    apply bind_eq_map (substitute_renumber key)
    intro key'
    apply bind_eq_map (substitute_renumber content)
    intro content'
    apply bind_eq_map (substituteEntries_renumber rest)
    intro rest'
    rfl

end

/-! ### Statements -/

theorem sameEntity_renumber (a b : Node) : sameEntity (a.renumber r) (b.renumber r) = sameEntity a b := by
  cases a with
  | var v =>
    cases b with
    | var v' => exact r.beq_iff v.id v'.id
    | _ => rfl
  | fn f =>
    cases b with
    | fn f' => exact r.beq_iff f.id f'.id
    | _ => rfl
  | _ => rfl

theorem assign_renumber (target source : Node) :
    assign (target.renumber r) (source.renumber r) = renumberIn r (assign target source) := by
  rw [assign, assign, sameEntity_renumber]
  cases sameEntity source target <;> rfl

theorem expressionStatement_renumber (n : Node) :
    (expression (n.renumber r) >>= fun n => (.ok (some [n]) : Except Fault (Option (List Node)))) =
      (expression n >>= fun n => .ok (some [n])).map (renumberIn r) := by
  apply bind_eq_map (expression_renumber r n)
  intro n'
  rfl

theorem compound_renumber (op : BinaryOp) (left right : Node) (type : Ty) : (do
      let target ← expression (left.renumber r)
      let right ← expression (right.renumber r)
      return assign target (← operation target op right type) : Except Fault (Option (List Node))) = (do
      let target ← expression left
      let right ← expression right
      return assign target (← operation target op right type) : Except Fault (Option (List Node))).map
        (renumberIn r) := by
  apply bind_eq_map (expression_renumber r left)
  intro target
  apply bind_eq_map (expression_renumber r right)
  intro right'
  apply bind_eq_map (operation_renumber r target op right' type)
  intro source
  exact congrArg Except.ok (assign_renumber r target source)

theorem plainStatement_renumber (n : Node) :
    plainStatement (n.renumber r) = (plainStatement n).map (renumberIn r) := by
  cases n with
  | varDecl _ _ init =>
    rw [renumber, plainStatement, plainStatement, Node.isMissing_renumber]
    split
    · rfl
    · apply bind_eq_map (expression_renumber r init)
      intro init'
      rfl
  | assign target source =>
    apply bind_eq_map (expression_renumber r source)
    intro source'
    apply bind_eq_map (expression_renumber r target)
    intro target'
    exact congrArg Except.ok (assign_renumber r target' source')
  | giveBack value =>
    apply bind_eq_map (expression_renumber r value)
    intro value'
    rfl
  | binary left op right type =>
    cases op
    case addAssign => exact compound_renumber r .add left right type
    case subAssign => exact compound_renumber r .sub left right type
    all_goals exact expressionStatement_renumber r (.binary left _ right type)
  | giveBackNothing | chop | next | classDecl => rfl
  | _ => exact expressionStatement_renumber r _

theorem unrolledBody_renumber (body : List Node) :
    unrolledBody (r id) value (renumberAll r body) = (unrolledBody id value body).map (renumberAll r) := by
  induction body with
  | nil => rfl
  | cons n ns ih =>
    apply bind_eq_map (substitute_renumber r id value n)
    intro n'
    apply bind_eq_map (plainStatement_renumber r n')
    intro first
    apply bind_eq_map ih
    intro rest
    show Except.ok _ = Except.ok _
    rw [Node.renumberAll_getD, Node.renumberAll_append]

theorem unrolled_renumber (body : List Node) (values : List Int) :
    unrolled (r id) (renumberAll r body) values = (unrolled id body values).map (renumberAll r) := by
  induction values with
  | nil => rfl
  | cons value _ ih =>
    apply bind_eq_map (unrolledBody_renumber r id value body)
    intro first
    apply bind_eq_map ih
    intro rest
    exact congrArg Except.ok (Node.renumberAll_append r first rest).symm

variable (o : SimplifyOptions)

theorem finishFor_renumber (name : String) (init condition step : Node) (body : Option (List Node))
    (entity : Option Variable) :
    finishFor o name (init.renumber r) (condition.renumber r) (step.renumber r) (renumberIn r body)
        (entity.map (Variable.renumber r)) =
      (finishFor o name init condition step body entity).map (renumberIn r) := by
  unfold finishFor
  rw [iterations?_renumber, Node.renumberAll_getD, all_copyable_renumber]
  cases entity with
  | none => rfl
  | some v =>
    cases iterations? (some v) init condition step with
    | none => rfl
    | some i =>
      simp only [Option.map_some]
      split
      · apply bind_eq_map (unrolled_renumber r v.id (body.getD []) i.values)
        intro copies
        rfl
      · rfl

@[simp] theorem isPlain_renumber (n : Node) : isPlain (n.renumber r) = isPlain n := by
  cases n <;> rfl

theorem statement_renumber_of_isPlain {n : Node} (h : isPlain n = true) :
    statement o (n.renumber r) = (statement o n).map (renumberIn r) := by
  rw [statement_of_isPlain o h, statement_of_isPlain o (by rw [isPlain_renumber, h])]
  exact plainStatement_renumber r n

def IfChain.renumber (chain : IfChain) : IfChain :=
  ⟨renumberArms r chain.arms, chain.always.map (renumberIn r)⟩

mutual

theorem statement_renumber (n : Node) : statement o (n.renumber r) = (statement o n).map (renumberIn r) := by
  cases n with
  | funDecl _ _ _ _ body =>
    apply bind_eq_map (block_renumber body)
    intro body'
    rfl
  | ifElse cases otherwise =>
    apply bind_eq_map (ifChain_renumber cases)
    rintro ⟨arms, always⟩
    cases always with
    | none =>
      apply bind_eq_map (block_renumber otherwise)
      intro otherwise'
      cases arms <;> rfl
    | some => cases arms <;> rfl
  | whileLoop condition body =>
    apply bind_eq_map (expression_renumber r condition)
    intro condition'
    rw [isBool_renumber]
    split
    · rfl
    · apply bind_eq_map (block_renumber body)
      intro body'
      rfl
  | forLoop name init condition step body entity =>
    apply bind_eq_map (expression_renumber r init)
    intro init'
    apply bind_eq_map (expression_renumber r condition)
    intro condition'
    apply bind_eq_map (expression_renumber r step)
    intro step'
    apply bind_eq_map (block_renumber body)
    intro body'
    exact finishFor_renumber r o name init' condition' step' body' entity
  | switch scrutinee cases default =>
    apply bind_eq_map (expression_renumber r scrutinee)
    intro scrutinee'
    apply bind_eq_map (block_renumber default)
    intro default'
    apply bind_eq_map (switchCases_renumber cases)
    intro cases'
    rfl
  | _ => exact statement_renumber_of_isPlain r o rfl

theorem statements_renumber : ∀ l : List Node,
    statements o (renumberAll r l) = (statements o l).map (renumberAll r)
  | [] => rfl
  | n :: ns => by
    apply bind_eq_map (statement_renumber n)
    intro first
    apply bind_eq_map (statements_renumber ns)
    intro rest
    show Except.ok _ = Except.ok _
    rw [Node.renumberAll_getD, Node.renumberAll_append]

theorem block_renumber : ∀ l : Option (List Node),
    block o (renumberIn r l) = (block o l).map (renumberIn r)
  | none => rfl
  | some ns => by
    apply bind_eq_map (statements_renumber ns)
    intro ns'
    rfl

theorem ifChain_renumber : ∀ l : List (Arm Node),
    ifChain o (renumberArms r l) = (ifChain o l).map (IfChain.renumber r)
  | [] => rfl
  | ⟨guard, body⟩ :: rest => by
    apply bind_eq_map (expression_renumber r guard)
    intro guard'
    apply bind_eq_map (block_renumber body)
    intro body'
    rw [isBool_renumber, isBool_renumber]
    split
    · rfl
    · apply bind_eq_map (ifChain_renumber rest)
      intro chain
      split <;> rfl

theorem switchCases_renumber : ∀ l : List (Arm Node),
    switchCases o (renumberArms r l) = (switchCases o l).map (renumberArms r)
  | [] => rfl
  | ⟨guard, body⟩ :: rest => by
    apply bind_eq_map (expression_renumber r guard)
    intro guard'
    apply bind_eq_map (block_renumber body)
    intro body'
    apply bind_eq_map (switchCases_renumber rest)
    intro rest'
    rfl

end

end Simplify

/-- Giving entities other numbers commutes with simplification. -/
theorem Program.simplify_renumber (r : Renumbering) (o : SimplifyOptions) (p : Program) :
    (p.renumber r).simplify o = (p.simplify o).map (Program.renumber r) := by
  apply Simplify.bind_eq_map (Simplify.block_renumber r o p.statements)
  intro statements
  rfl

end LemonScript
