import Mathlib.Logic.Function.Basic
import LemonScript.Library
import LemonScript.Syntax.Fault
/-!
# Other numbers for the same entities

Entities are told apart by their numbers and by nothing else. This module gives the entities of a tree
other numbers: different entities keep different numbers, and those of the library keep their own.
-/

namespace LemonScript

/-- New numbers for entities. -/
structure Renumbering where
  toFun : Int → Int
  injective : Function.Injective toFun
  functions : ∀ f ∈ Library.functions, toFun f.id = f.id
  constants : ∀ v ∈ Library.constants, toFun v.id = v.id

namespace Renumbering

instance : CoeFun Renumbering fun _ => Int → Int := ⟨toFun⟩

variable (r : Renumbering)

theorem beq_iff (a b : Int) : (r a == r b) = (a == b) := by
  rw [Bool.eq_iff_iff, beq_iff_eq, beq_iff_eq]
  exact r.injective.eq_iff

theorem beq_library {k : Int} (hk : r k = k) (id : Int) : (r id == k) = (id == k) := by
  rw [← r.beq_iff id k, hk]

end Renumbering

variable (r : Renumbering)

def Variable.renumber (v : Variable) : Variable := { v with id := r v.id }

def Function.renumber (f : Function) : Function := { f with id := r f.id }

def Parameter.renumber (p : Parameter) : Parameter :=
  { p with entity := p.entity.map (Variable.renumber r) }

namespace Node

mutual

def renumber : Node → Node
  | missing => missing
  | program imports statements => program imports (renumberIn statements)
  | importing clause => importing clause
  | classDecl name parent params plant body =>
    classDecl name parent (params.map (·.map (Parameter.renumber r))) (renumberIn plant) (renumberIn body)
  | varDecl type name init isConst isStatic entity =>
    varDecl type name (renumber init) isConst isStatic (entity.map (Variable.renumber r))
  | assign target source => assign (renumber target) (renumber source)
  | funDecl name isStatic result params body entity =>
    funDecl name isStatic result (params.map (·.map (Parameter.renumber r))) (renumberIn body)
      (entity.map (Function.renumber r))
  | parameter p => parameter (p.renumber r)
  | call callee args type => call (renumber callee) (renumberIn args) type
  | ifElse cases otherwise => ifElse (renumberArms cases) (renumberIn otherwise)
  | ifCase ⟨guard, body⟩ => ifCase ⟨renumber guard, renumberIn body⟩
  | whileLoop condition body => whileLoop (renumber condition) (renumberIn body)
  | forLoop name init condition step body entity =>
    forLoop name (renumber init) (renumber condition) (renumber step) (renumberIn body)
      (entity.map (Variable.renumber r))
  | switch scrutinee cases default =>
    switch (renumber scrutinee) (renumberArms cases) (renumberIn default)
  | switchCase ⟨guard, body⟩ => switchCase ⟨renumber guard, renumberIn body⟩
  | giveBack value => giveBack (renumber value)
  | giveBackNothing => giveBackNothing
  | chop => chop
  | next => next
  | binary left op right type => binary (renumber left) op (renumber right) type
  | unary op operand leading type => unary op (renumber operand) leading type
  | arrayLit elements type => arrayLit (renumberIn elements) type
  | mapLit entries type => mapLit (renumberEntries entries) type
  | entry ⟨key, value⟩ => entry ⟨renumber key, renumber value⟩
  | member array index type => member (renumber array) index type
  | property map key type => property (renumber map) (renumber key) type
  | ident name => ident name
  | intLit value => intLit value
  | floatLit value => floatLit value
  | stringLit value => stringLit value
  | boolLit name value type => boolLit name value type
  | var v => var (v.renumber r)
  | fn f => fn (f.renumber r)

def renumberAll : List Node → List Node
  | [] => []
  | n :: ns => renumber n :: renumberAll ns

def renumberIn : Option (List Node) → Option (List Node)
  | none => none
  | some ns => some (renumberAll ns)

def renumberArms : List (Arm Node) → List (Arm Node)
  | [] => []
  | ⟨guard, body⟩ :: rest => ⟨renumber guard, renumberIn body⟩ :: renumberArms rest

def renumberEntries : List (Entry Node) → List (Entry Node)
  | [] => []
  | ⟨key, value⟩ :: rest => ⟨renumber key, renumber value⟩ :: renumberEntries rest

end

@[simp] theorem isMissing_renumber (n : Node) : (n.renumber r).isMissing = n.isMissing := by
  cases n <;> rfl

@[simp] theorem renumber_ofBool (value : Bool) : (ofBool value).renumber r = ofBool value := rfl

theorem renumberAll_append (l l' : List Node) :
    renumberAll r (l ++ l') = renumberAll r l ++ renumberAll r l' := by
  induction l with
  | nil => rfl
  | cons n l ih => rw [List.cons_append, renumberAll, renumberAll, ih, List.cons_append]

theorem renumberAll_getD (l : Option (List Node)) :
    (renumberIn r l).getD [] = renumberAll r (l.getD []) := by
  cases l <;> rfl

end Node

def Program.renumber (p : Program) : Program := ⟨p.imports, Node.renumberIn r p.statements⟩

end LemonScript
