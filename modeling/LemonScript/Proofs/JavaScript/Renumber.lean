import LemonScript.Proofs.JavaScript.Written
import LemonScript.Proofs.Syntax.Renumber
/-!
# The text of a program does not depend on its numbers

The writer keeps a table of the entities that it has met, in order, and a name shows the place of its
entity in that table. Two runs, one of them on the tree with other numbers, keep tables that differ by the
change of numbers and nothing else, so they write the same text.
-/

namespace LemonScript

open Node (renumber renumberAll renumberArms renumberIn)

namespace JavaScript

variable {α β : Type} (r : Renumbering)

def EmitState.renumber (s : EmitState) : EmitState := { s with met := s.met.map r }

/-- The second step does what the first one does, from a state with other numbers. -/
def Agrees (m m' : Emit α) : Prop :=
  ∀ s : EmitState, m' (s.renumber r) = (m s).map fun p => (p.1, p.2.renumber r)

variable {r}
variable {m m' : Emit α}

theorem agrees_pure (a : α) : Agrees r (pure a) (pure a) := fun _ => rfl

theorem agrees_throw (f : Fault) : Agrees r (throw f : Emit α) (throw f) := fun _ => rfl

theorem Agrees.bind {f f' : α → Emit β} (hm : Agrees r m m') (hf : ∀ a, Agrees r (f a) (f' a)) :
    Agrees r (m >>= f) (m' >>= f') := by
  intro s
  change Except.bind (m' (s.renumber r)) (fun p => f' p.1 p.2) =
    (Except.bind (m s) fun p => f p.1 p.2).map _
  rw [hm s]
  cases m s with
  | error e => rfl
  | ok p => exact hf p.1 p.2

theorem agrees_modify {f : EmitState → EmitState} (hf : ∀ s, f (s.renumber r) = (f s).renumber r) :
    Agrees r (modify f : Emit PUnit) (modify f) := by
  intro s
  change Except.ok (PUnit.unit, f (s.renumber r)) = Except.ok (PUnit.unit, (f s).renumber r)
  rw [hf]

theorem contains_map (l : List Int) (id : Int) : (l.map r).contains (r id) = l.contains id := by
  induction l with
  | nil => rfl
  | cons a l ih => rw [List.map_cons, List.contains_cons, List.contains_cons, ih, r.beq_iff]

theorem idxOf_map (l : List Int) (id : Int) : (l.map r).idxOf (r id) = l.idxOf id := by
  induction l with
  | nil => rfl
  | cons a l ih => rw [List.map_cons, List.idxOf_cons, List.idxOf_cons, ih, r.beq_iff]

theorem meet_map (met : List Int) (id : Int) : meet (met.map r) (r id) = (meet met id).map r := by
  unfold meet
  rw [contains_map]
  split
  · rfl
  · rw [List.map_append, List.map_singleton]

theorem agrees_targetName (id : Int) (name : String) :
    Agrees r (targetName id name) (targetName (r id) name) := by
  intro s
  have hmet : meet (s.renumber r).met (r id) = (meet s.met id).map r := meet_map s.met id
  rw [targetName_run, targetName_run, hmet, idxOf_map]
  rfl

theorem agrees_chopText : Agrees r chopText chopText := by
  intro s
  rw [chopText_run, chopText_run]
  rfl

/-! ### Expressions -/

theorem agrees_call {callee : Node} {args : Option (List Node)} {type : Ty}
    (hcallee : Agrees r (expression callee) (expression (callee.renumber r)))
    (hargs : Agrees r (optionalExpressions args) (optionalExpressions (renumberIn r args))) :
    Agrees r (expression (.call callee args type)) (expression ((Node.call callee args type).renumber r)) := by
  by_cases hfn : ∃ f, callee = .fn f
  · obtain ⟨f, rfl⟩ := hfn
    have hpour := r.functions Library.pour (by simp [Library.functions])
    have hspecies := r.functions Library.species (by simp [Library.functions])
    simp only [renumber, expression, Function.renumber, r.beq_library hpour, r.beq_library hspecies]
    split
    · exact Agrees.bind (agrees_modify fun _ => rfl) fun _ => hargs.bind fun _ => agrees_pure _
    split
    · exact hargs.bind fun _ => agrees_pure _
    · exact (agrees_targetName _ _).bind fun _ => hargs.bind fun _ => agrees_pure _
  · have hcall : ∀ f, callee ≠ .fn f := fun f h => hfn ⟨f, h⟩
    have hcall' : ∀ f, callee.renumber r ≠ .fn f := by
      intro f h
      cases callee <;> first | exact hcall _ rfl | cases h
    rw [renumber, expression_call hcall, expression_call hcall']
    exact hcallee.bind fun _ => hargs.bind fun _ => agrees_pure _

mutual

theorem agrees_expression (n : Node) : Agrees r (expression n) (expression (n.renumber r)) := by
  cases n with
  | var v =>
    have hpi := r.constants Library.pi (List.mem_singleton_self _)
    simp only [renumber, expression, Variable.renumber, r.beq_library hpi]
    split
    · exact agrees_pure _
    · exact agrees_targetName _ _
  | fn f =>
    simp only [renumber, expression, Function.renumber]
    exact agrees_targetName _ _
  | intLit | floatLit | stringLit | boolLit =>
    simp only [renumber, expression]
    exact agrees_pure _
  | binary left op right _ =>
    simp only [renumber, expression]
    exact (agrees_expression left).bind fun _ => (agrees_expression right).bind fun _ => agrees_pure _
  | unary _ operand =>
    simp only [renumber, expression]
    exact (agrees_expression operand).bind fun _ => agrees_pure _
  | call callee args _ => exact agrees_call (agrees_expression callee) (agrees_optionalExpressions args)
  | arrayLit elements _ =>
    simp only [renumber, expression]
    exact (agrees_optionalExpressions elements).bind fun _ => agrees_pure _
  | mapLit entries _ =>
    simp only [renumber, expression]
    exact (agrees_mapEntries entries).bind fun _ => agrees_pure _
  | member array index _ =>
    simp only [renumber, expression]
    apply (agrees_expression array).bind
    intro _
    cases index with
    | none => exact agrees_throw _
    | some => exact agrees_pure _
  | property map key _ =>
    simp only [renumber, expression]
    exact (agrees_expression map).bind fun _ => (agrees_expression key).bind fun _ => agrees_pure _
  | _ =>
    simp only [renumber, expression, Fault.ofNode, Node.kindName?]
    exact agrees_throw _

theorem agrees_expressions : ∀ l : List Node, Agrees r (expressions l) (expressions (renumberAll r l))
  | [] => agrees_pure _
  | n :: ns => by
    simp only [renumberAll, expressions]
    exact (agrees_expression n).bind fun _ => (agrees_expressions ns).bind fun _ => agrees_pure _

theorem agrees_optionalExpressions : ∀ l : Option (List Node),
    Agrees r (optionalExpressions l) (optionalExpressions (renumberIn r l))
  | none => agrees_pure _
  | some ns => by
    simp only [renumberIn, optionalExpressions]
    exact agrees_expressions ns

theorem agrees_mapEntries : ∀ l : List (Entry Node),
    Agrees r (mapEntries l) (mapEntries (Node.renumberEntries r l))
  | [] => agrees_pure _
  | ⟨key, value⟩ :: rest => by
    simp only [Node.renumberEntries, mapEntries]
    exact (agrees_expression key).bind fun _ => (agrees_expression value).bind fun _ =>
      (agrees_mapEntries rest).bind fun _ => agrees_pure _

end

/-! ### Statements -/

theorem agrees_set_frames (f : List Frame → List Frame) :
    Agrees r (modify fun s => { s with frames := f s.frames } : Emit PUnit)
      (modify fun s => { s with frames := f s.frames }) :=
  agrees_modify fun _ => rfl

theorem Agrees.inFrame (frame : Frame) (h : Agrees r m m') :
    Agrees r (inFrame frame m) (inFrame frame m') := by
  unfold JavaScript.inFrame
  refine Agrees.bind (agrees_set_frames (frame :: ·)) fun _ => h.bind fun a => ?_
  intro s
  rfl

theorem Agrees.inFunction (h : Agrees r m m') : Agrees r (inFunction m) (inFunction m') := by
  intro s
  have hbody : Agrees r (do let a ← m; modify fun t => { t with frames := s.frames }; return a)
      (do let a ← m'; modify fun t => { t with frames := s.frames }; return a) :=
    h.bind fun a => Agrees.bind (agrees_set_frames fun _ => s.frames) fun _ => agrees_pure a
  exact hbody { s with frames := [] }

theorem Agrees.loopLines (depth : Nat) (header : String) {m m' : Emit (List Line)} (h : Agrees r m m') :
    Agrees r (loopLines depth header m) (loopLines depth header m') :=
  (h.inFrame _).bind fun _ => agrees_pure _

theorem agrees_declaredVariable : ∀ entity : Option Variable,
    Agrees r (declaredVariable entity) (declaredVariable (entity.map (Variable.renumber r)))
  | some v => agrees_expression (.var v)
  | none => agrees_throw _

theorem agrees_declaredFunction : ∀ entity : Option Function,
    Agrees r (declaredFunction entity) (declaredFunction (entity.map (Function.renumber r)))
  | some f => agrees_expression (.fn f)
  | none => agrees_throw _

theorem agrees_parameterNames (ps : List Parameter) :
    Agrees r (parameterNames ps) (parameterNames (ps.map (Parameter.renumber r))) := by
  induction ps with
  | nil => exact agrees_pure _
  | cons p ps ih => exact (agrees_declaredVariable p.entity).bind fun _ => ih.bind fun _ => agrees_pure _

mutual

theorem agrees_statement (depth : Nat) (n : Node) :
    Agrees r (statement depth n) (statement depth (n.renumber r)) := by
  cases n with
  | varDecl _ _ init _ _ entity =>
    simp only [renumber, statement, Node.isMissing_renumber]
    apply (agrees_declaredVariable entity).bind
    intro _
    split
    · exact agrees_pure _
    · exact (agrees_expression init).bind fun _ => agrees_pure _
  | assign target source =>
    simp only [renumber, statement]
    exact (agrees_expression target).bind fun _ => (agrees_expression source).bind fun _ => agrees_pure _
  | funDecl _ _ _ params body entity =>
    have hparams : (params.map (·.map (Parameter.renumber r))).getD [] =
        (params.getD []).map (Parameter.renumber r) := by
      cases params <;> rfl
    simp only [renumber, statement, hparams]
    exact (agrees_declaredFunction entity).bind fun _ => (agrees_parameterNames _).bind fun _ =>
      (agrees_block (depth + 1) body).inFunction.bind fun _ => agrees_pure _
  | ifElse cases otherwise =>
    simp only [renumber, statement]
    exact (agrees_ifCases depth _ cases).bind fun _ => (agrees_elseBlock depth otherwise).bind fun _ =>
      agrees_pure _
  | whileLoop condition body =>
    simp only [renumber, statement]
    exact (agrees_expression condition).bind fun _ => (agrees_block _ body).loopLines _ _
  | forLoop _ init condition step body entity =>
    simp only [renumber, statement]
    exact (agrees_declaredVariable entity).bind fun _ => (agrees_expression init).bind fun _ =>
      (agrees_expression condition).bind fun _ => (agrees_expression step).bind fun _ =>
        (agrees_block _ body).loopLines _ _
  | switch scrutinee cases default =>
    simp only [renumber, statement]
    apply (agrees_expression scrutinee).bind
    intro _
    apply Agrees.bind
    · apply Agrees.inFrame
      exact (agrees_switchCases _ cases).bind fun _ => (agrees_defaultClause _ default).bind fun _ =>
        agrees_pure _
    · exact fun _ => agrees_pure _
  | giveBack value =>
    simp only [renumber, statement]
    exact (agrees_expression value).bind fun _ => agrees_pure _
  | giveBackNothing | next =>
    simp only [renumber, statement]
    exact agrees_pure _
  | chop =>
    simp only [renumber, statement]
    exact agrees_chopText.bind fun _ => agrees_pure _
  | _ =>
    simp only [renumber, statement]
    exact (agrees_expression _).bind fun _ => agrees_pure _

theorem agrees_statements (depth : Nat) : ∀ l : List Node,
    Agrees r (statements depth l) (statements depth (renumberAll r l))
  | [] => agrees_pure _
  | n :: ns => by
    simp only [renumberAll, statements]
    exact (agrees_statement depth n).bind fun _ => (agrees_statements depth ns).bind fun _ => agrees_pure _

theorem agrees_block (depth : Nat) : ∀ l : Option (List Node),
    Agrees r (block depth l) (block depth (renumberIn r l))
  | none => agrees_pure _
  | some ns => by
    simp only [renumberIn, block]
    exact agrees_statements depth ns

theorem agrees_ifCases (depth : Nat) (keyword : String) : ∀ l : List (Arm Node),
    Agrees r (ifCases depth keyword l) (ifCases depth keyword (renumberArms r l))
  | [] => agrees_pure _
  | ⟨guard, body⟩ :: rest => by
    simp only [renumberArms, ifCases]
    exact (agrees_expression guard).bind fun _ => (agrees_block _ body).bind fun _ =>
      (agrees_ifCases depth _ rest).bind fun _ => agrees_pure _

theorem agrees_elseBlock (depth : Nat) : ∀ l : Option (List Node),
    Agrees r (elseBlock depth l) (elseBlock depth (renumberIn r l))
  | none | some [] => agrees_pure _
  | some (n :: ns) => by
    simp only [renumberIn, renumberAll, elseBlock]
    exact (agrees_statement _ n).bind fun _ => (agrees_statements _ ns).bind fun _ => agrees_pure _

theorem agrees_switchCases (depth : Nat) : ∀ l : List (Arm Node),
    Agrees r (switchCases depth l) (switchCases depth (renumberArms r l))
  | [] => agrees_pure _
  | ⟨guard, body⟩ :: rest => by
    simp only [renumberArms, switchCases]
    exact (agrees_expression guard).bind fun _ => (agrees_block _ body).bind fun _ =>
      (agrees_switchCases depth rest).bind fun _ => agrees_pure _

theorem agrees_defaultClause (depth : Nat) : ∀ l : Option (List Node),
    Agrees r (defaultClause depth l) (defaultClause depth (renumberIn r l))
  | none => agrees_pure _
  | some ns => by
    simp only [renumberIn, defaultClause]
    exact (agrees_statements _ ns).bind fun _ => agrees_pure _

end

end JavaScript

/-- A program with other numbers has the same text. -/
theorem Program.javaScript_renumber (r : Renumbering) (p : Program) :
    (p.renumber r).javaScript = p.javaScript := by
  have hlines : (p.renumber r).javaScriptLines =
      p.javaScriptLines.map fun q => (q.1, q.2.renumber r) :=
    JavaScript.agrees_block 0 p.statements .initial
  unfold Program.javaScript
  rw [hlines]
  cases p.javaScriptLines <;> rfl

end LemonScript
