import Mathlib
import LemonScript.Library
import LemonScript.Proofs.Grammar.Surface
import LemonScript.Proofs.Syntax.Parts
/-!
# Well-formed trees

After analysis every use of a variable or a function lies in the scope of its declaration, every
declaration has its entity, and every jump has a place to go to. The predicates of this module say
so, and they also fix the shape that the later stages rely on: which nodes are expressions, and which
are statements.
-/

namespace LemonScript

/-- What may be used at a place of a program. -/
@[ext]
structure Site where
  vars : Set Int
  funs : Set Int
  inLoop : Prop
  /-- There is a function around the place. -/
  inFunction : Prop

namespace Site

def SeesVariable (Γ : Site) (id : Int) : Prop := Library.isLibrary id = true ∨ id ∈ Γ.vars

def SeesFunction (Γ : Site) (id : Int) : Prop := Library.isLibrary id = true ∨ id ∈ Γ.funs

/-- Where a program starts: nothing is declared yet. -/
def top : Site := ⟨∅, ∅, False, False⟩

def declare (Γ : Site) (id : Int) : Site := { Γ with vars := insert id Γ.vars }

def declareAll (Γ : Site) (ids : List Int) : Site :=
  { Γ with vars := Γ.vars ∪ {i | i ∈ ids} }

def declareFunction (Γ : Site) (id : Int) : Site := { Γ with funs := insert id Γ.funs }

def loop (Γ : Site) : Site := { Γ with inLoop := True }

/-- The body of a function; the loops around it are out of reach. -/
def function (Γ : Site) : Site := { Γ with inLoop := False, inFunction := True }

def behind (Γ : Site) : Node → Site
  | .varDecl _ _ _ _ _ (some v) => Γ.declare v.id
  | .funDecl _ _ _ _ _ (some f) => Γ.declareFunction f.id
  | _ => Γ

def behindAll (Γ : Site) : List Node → Site
  | [] => Γ
  | n :: ns => (Γ.behind n).behindAll ns

/-- All entities of the first place are declared at the second one. -/
structure Under (Γ Δ : Site) : Prop where
  vars : Γ.vars ⊆ Δ.vars
  funs : Γ.funs ⊆ Δ.funs

/-- All that may be used at the first place may be used at the second one. -/
structure Within (Γ Δ : Site) : Prop extends Γ.Under Δ where
  inLoop : Γ.inLoop → Δ.inLoop
  inFunction : Γ.inFunction → Δ.inFunction

end Site

def parameterIds (params : Option (List Parameter)) : List Int :=
  (params.getD []).filterMap fun p => p.entity.map (·.id)

namespace Scoped

mutual

def Expression (Γ : Site) : Node → Prop
  | .var v => Γ.SeesVariable v.id
  | .fn f => Γ.SeesFunction f.id ∧ f.signature.isSome
  | .intLit _ | .floatLit _ | .stringLit _ | .boolLit .. => True
  | .binary left op right _ => op.IsInfix ∧ Expression Γ left ∧ Expression Γ right
  | .unary op operand _ _ => op.IsSign ∧ Expression Γ operand
  | .call callee args _ => Expression Γ callee ∧ Optional Γ args
  | .arrayLit elements _ => Optional Γ elements
  | .mapLit entries _ => Entries Γ entries
  | .member array index _ => index.isSome ∧ Expression Γ array
  | .property map key _ => Expression Γ map ∧ Expression Γ key
  | _ => False

def Expressions (Γ : Site) : List Node → Prop
  | [] => True
  | n :: ns => Expression Γ n ∧ Expressions Γ ns

def Optional (Γ : Site) : Option (List Node) → Prop
  | none => True
  | some ns => Expressions Γ ns

def Entries (Γ : Site) : List (Entry Node) → Prop
  | [] => True
  | ⟨key, value⟩ :: rest => Expression Γ key ∧ Expression Γ value ∧ Entries Γ rest

end

def Update (Γ : Site) : Node → Prop
  | .binary (.var v) op right _ => Γ.SeesVariable v.id ∧ op.IsUpdate ∧ Expression Γ right
  | .unary op (.var v) _ _ => Γ.SeesVariable v.id ∧ op.IsUpdate
  | _ => False

def Parameters (params : Option (List Parameter)) : Prop :=
  ∀ p ∈ params.getD [], p.entity.isSome

mutual

def Statement (Γ : Site) : Node → Prop
  | .varDecl _ _ init _ _ entity => (init = .missing ∨ Expression Γ init) ∧ entity.isSome
  | .assign target source => Expression Γ target ∧ Expression Γ source
  | .funDecl _ _ _ params body entity =>
    ∃ f, entity = some f ∧ Parameters params ∧
      Block ((Γ.declareFunction f.id).declareAll (parameterIds params)).function body
  | .ifElse cases otherwise => Arms Γ cases ∧ Block Γ otherwise
  | .whileLoop condition body => Expression Γ condition ∧ Block Γ.loop body
  | .forLoop _ init condition step body entity =>
    ∃ v, entity = some v ∧ Expression Γ init ∧ Expression (Γ.declare v.id) condition ∧
      Update (Γ.declare v.id) step ∧ Block (Γ.declare v.id).loop body
  | .switch scrutinee cases default => Expression Γ scrutinee ∧ Arms Γ cases ∧ Block Γ default
  | .giveBack value => Γ.inFunction ∧ Expression Γ value
  | .giveBackNothing => Γ.inFunction
  | .chop | .next => Γ.inLoop
  | n => Update Γ n ∨ Expression Γ n

def Statements (Γ : Site) : List Node → Prop
  | [] => True
  | n :: ns => Statement Γ n ∧ Statements (Γ.behind n) ns

def Block (Γ : Site) : Option (List Node) → Prop
  | none => True
  | some ns => Statements Γ ns

def Arms (Γ : Site) : List (Arm Node) → Prop
  | [] => True
  | ⟨guard, body⟩ :: rest => Expression Γ guard ∧ Block Γ body ∧ Arms Γ rest

end

end Scoped

namespace Node

mutual

def declared : Node → List Int
  | varDecl _ _ _ _ _ entity => entity.toList.map (·.id)
  | funDecl _ _ _ params body entity =>
    entity.toList.map (·.id) ++ (parameterIds params ++ declaredIn body)
  | ifElse cases otherwise => declaredInArms cases ++ declaredIn otherwise
  | whileLoop _ body => declaredIn body
  | forLoop _ _ _ _ body entity => entity.toList.map (·.id) ++ declaredIn body
  | switch _ cases default => declaredInArms cases ++ declaredIn default
  | _ => []

def declaredInAll : List Node → List Int
  | [] => []
  | n :: ns => n.declared ++ declaredInAll ns

def declaredIn : Option (List Node) → List Int
  | none => []
  | some ns => declaredInAll ns

def declaredInArms : List (Arm Node) → List Int
  | [] => []
  | ⟨_, body⟩ :: rest => declaredIn body ++ declaredInArms rest

end

end Node

/-- A program whose uses are all in the scope of a declaration, whose jumps all have a place to go to,
and that declares no entity twice and none of the library's. -/
structure Program.WellFormed (p : Program) : Prop where
  inScope : Scoped.Block .top p.statements
  nodup : (Node.declaredIn p.statements).Nodup
  own : ∀ id ∈ Node.declaredIn p.statements, Library.isLibrary id = false

namespace Site

variable {Γ Δ : Site}

theorem Under.seesVariable (h : Γ.Under Δ) {id : Int} (hid : Γ.SeesVariable id) :
    Δ.SeesVariable id :=
  hid.imp_right fun hmem => h.vars hmem

theorem Under.seesFunction (h : Γ.Under Δ) {id : Int} (hid : Γ.SeesFunction id) :
    Δ.SeesFunction id :=
  hid.imp_right fun hmem => h.funs hmem

theorem seesVariable_declare (Γ : Site) (id : Int) : (Γ.declare id).SeesVariable id :=
  .inr (Set.mem_insert _ _)

theorem seesFunction_declareFunction (Γ : Site) (id : Int) :
    (Γ.declareFunction id).SeesFunction id :=
  .inr (Set.mem_insert _ _)

theorem loop_under (Γ : Site) : Γ.loop.Under Γ := ⟨subset_rfl, subset_rfl⟩

theorem Within.refl (Γ : Site) : Γ.Within Γ := ⟨⟨subset_rfl, subset_rfl⟩, id, id⟩

theorem Within.trans {Θ : Site} (h : Γ.Within Δ) (h' : Δ.Within Θ) : Γ.Within Θ :=
  ⟨⟨h.vars.trans h'.vars, h.funs.trans h'.funs⟩, h'.inLoop ∘ h.inLoop, h'.inFunction ∘ h.inFunction⟩

theorem Within.declare (h : Γ.Within Δ) (id : Int) : (Γ.declare id).Within (Δ.declare id) :=
  ⟨⟨Set.insert_subset_insert h.vars, h.funs⟩, h.inLoop, h.inFunction⟩

theorem within_declare (Γ : Site) (id : Int) : Γ.Within (Γ.declare id) :=
  ⟨⟨Set.subset_insert _ _, subset_rfl⟩, fun h => h, fun h => h⟩

theorem Within.declareFunction (h : Γ.Within Δ) (id : Int) :
    (Γ.declareFunction id).Within (Δ.declareFunction id) :=
  ⟨⟨h.vars, Set.insert_subset_insert h.funs⟩, h.inLoop, h.inFunction⟩

theorem within_declareFunction (Γ : Site) (id : Int) : Γ.Within (Γ.declareFunction id) :=
  ⟨⟨subset_rfl, Set.subset_insert _ _⟩, fun h => h, fun h => h⟩

theorem within_declareAll (Γ : Site) (ids : List Int) : Γ.Within (Γ.declareAll ids) :=
  ⟨⟨Set.subset_union_left, subset_rfl⟩, fun h => h, fun h => h⟩

theorem Within.declareAll (h : Γ.Within Δ) (ids : List Int) :
    (Γ.declareAll ids).Within (Δ.declareAll ids) :=
  ⟨⟨Set.union_subset_union_left _ h.vars, h.funs⟩, h.inLoop, h.inFunction⟩

theorem within_loop (Γ : Site) : Γ.Within Γ.loop :=
  ⟨⟨subset_rfl, subset_rfl⟩, fun _ => trivial, fun h => h⟩

theorem Within.loop (h : Γ.Within Δ) : Γ.loop.Within Δ.loop :=
  ⟨⟨h.vars, h.funs⟩, id, h.inFunction⟩

theorem Within.function (h : Γ.Within Δ) : Γ.function.Within Δ.function :=
  ⟨⟨h.vars, h.funs⟩, id, id⟩

theorem within_behind (Γ : Site) (n : Node) : Γ.Within (Γ.behind n) := by
  unfold behind
  split
  · exact within_declare Γ _
  · exact within_declareFunction Γ _
  · exact .refl Γ

theorem Within.behind (h : Γ.Within Δ) (n : Node) : (Γ.behind n).Within (Δ.behind n) := by
  unfold Site.behind
  split
  · exact h.declare _
  · exact h.declareFunction _
  · exact h

theorem within_behindAll (Γ : Site) (ns : List Node) : Γ.Within (Γ.behindAll ns) := by
  induction ns generalizing Γ with
  | nil => exact .refl Γ
  | cons n ns ih => exact (within_behind Γ n).trans (ih _)

end Site

namespace Scoped

variable {Γ Δ : Site}

/-! ### Expressions and their children -/

section Children

variable {n : Node} {ns : List Node}

theorem expressions_iff : Expressions Γ ns ↔ ∀ n ∈ ns, Expression Γ n :=
  Node.forall_mem_iff trivial fun _ _ => Iff.rfl

theorem optional_iff {ns : Option (List Node)} : Optional Γ ns ↔ ∀ n ∈ ns.getD [], Expression Γ n :=
  Node.forall_mem_getD_iff trivial fun _ => expressions_iff

theorem entries_iff {es : List (Entry Node)} :
    Entries Γ es ↔ ∀ n ∈ es.flatMap Entry.children, Expression Γ n :=
  Node.forall_mem_entries_iff trivial fun _ _ => Iff.rfl

/-- What an expression is at its root. -/
def Root (Γ : Site) : Node → Prop
  | .var v => Γ.SeesVariable v.id
  | .fn f => Γ.SeesFunction f.id ∧ f.signature.isSome
  | .binary _ op _ _ => op.IsInfix
  | .unary op _ _ _ => op.IsSign
  | .member _ index _ => index.isSome
  | .intLit _ | .floatLit _ | .stringLit _ | .boolLit .. | .call .. | .arrayLit .. | .mapLit .. | .property .. => True
  | _ => False

theorem expression_iff : Expression Γ n ↔ Root Γ n ∧ ∀ c ∈ n.children, Expression Γ c := by
  cases n <;> simp only [Expression, Root, Node.children, optional_iff, entries_iff, List.forall_mem_cons,
    List.not_mem_nil, false_implies, implies_true, and_true, true_and, false_and]

theorem Expression.children (h : Expression Γ n) : ∀ c ∈ n.children, Expression Γ c := (expression_iff.mp h).2

theorem expression_mapChildren {f : Node → Node} (hn : Root Γ n) (hroot : Root Δ (n.mapChildren f))
    (hf : ∀ c ∈ n.children, Expression Δ (f c)) : Expression Δ (n.mapChildren f) := by
  have hopen : n.isOpen = true := by cases n <;> first | rfl | exact hn.elim
  refine expression_iff.mpr ⟨hroot, ?_⟩
  rw [Node.children_mapChildren hopen]
  exact List.forall_mem_map.mpr hf

end Children

/-! ### What may be used at one place may be used where more is visible -/

theorem Expression.mono (h : Γ.Under Δ) {n : Node} (hn : Expression Γ n) : Expression Δ n := by
  induction n with
  | h n ih =>
  rw [expression_iff] at hn ⊢
  refine ⟨?_, fun c hc => ih c hc (hn.2 c hc)⟩
  cases n with
  | var => exact h.seesVariable hn.1
  | fn => exact ⟨h.seesFunction hn.1.1, hn.1.2⟩
  | _ => exact hn.1

theorem Update.mono (h : Γ.Under Δ) {n : Node} (hn : Update Γ n) : Update Δ n := by
  unfold Update at hn ⊢
  split at hn
  · exact ⟨h.seesVariable hn.1, hn.2.1, hn.2.2.mono h⟩
  · exact ⟨h.seesVariable hn.1, hn.2⟩
  · exact hn.elim

theorem statement_of_simple {n : Node} (h : Update Γ n ∨ Expression Γ n) :
    Statement Γ n ∧ n.declared = [] ∧ ∀ Δ : Site, Δ.behind n = Δ := by
  cases n <;> first
    | exact ⟨h, rfl, fun _ => rfl⟩
    | simp [Update, Expression] at h

mutual

theorem Statement.mono {Γ Δ : Site} (h : Γ.Within Δ) {n : Node} (hn : Statement Γ n) : Statement Δ n := by
  cases n with
  | varDecl => exact ⟨hn.1.imp_right (·.mono h.toUnder), hn.2⟩
  | assign => exact ⟨hn.1.mono h.toUnder, hn.2.mono h.toUnder⟩
  | funDecl =>
    obtain ⟨f, hf, hparams, hbody⟩ := hn
    exact ⟨f, hf, hparams, hbody.mono ((h.declareFunction _).declareAll _).function⟩
  | ifElse => exact ⟨hn.1.mono h, hn.2.mono h⟩
  | whileLoop => exact ⟨hn.1.mono h.toUnder, hn.2.mono h.loop⟩
  | forLoop =>
    obtain ⟨v, hv, hinit, hcondition, hstep, hbody⟩ := hn
    exact ⟨v, hv, hinit.mono h.toUnder, hcondition.mono (h.declare _).toUnder,
      hstep.mono (h.declare _).toUnder,
      hbody.mono (h.declare _).loop⟩
  | switch => exact ⟨hn.1.mono h.toUnder, hn.2.1.mono h, hn.2.2.mono h⟩
  | giveBack => exact ⟨h.inFunction hn.1, hn.2.mono h.toUnder⟩
  | giveBackNothing => exact h.inFunction hn
  | chop | next => exact h.inLoop hn
  | _ => exact hn.imp (·.mono h.toUnder) (·.mono h.toUnder)

theorem Statements.mono {Γ Δ : Site} (h : Γ.Within Δ) :
    ∀ {l : List Node}, Statements Γ l → Statements Δ l
  | [], _ => trivial
  | n :: _, hns => ⟨hns.1.mono h, hns.2.mono (h.behind n)⟩

theorem Block.mono {Γ Δ : Site} (h : Γ.Within Δ) :
    ∀ {l : Option (List Node)}, Block Γ l → Block Δ l
  | none, _ => trivial
  | some ns, hns => Statements.mono h (l := ns) hns

theorem Arms.mono {Γ Δ : Site} (h : Γ.Within Δ) : ∀ {l : List (Arm Node)}, Arms Γ l → Arms Δ l
  | [], _ => trivial
  | ⟨_, _⟩ :: _, hl => ⟨hl.1.mono h.toUnder, hl.2.1.mono h, hl.2.2.mono h⟩

end

theorem statements_append {l l' : List Node} :
    Statements Γ (l ++ l') ↔ Statements Γ l ∧ Statements (Γ.behindAll l) l' := by
  induction l generalizing Γ with
  | nil => simp [Statements, Site.behindAll]
  | cons n l ih => simp [Statements, Site.behindAll, ih, and_assoc]

end Scoped

theorem Node.declaredInAll_append (l l' : List Node) :
    declaredInAll (l ++ l') = declaredInAll l ++ declaredInAll l' := by
  induction l with
  | nil => rfl
  | cons n l ih => simp [declaredInAll, ih]

end LemonScript
