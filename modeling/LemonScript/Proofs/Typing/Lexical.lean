import Mathlib
import LemonScript.Library
import LemonScript.Syntax.Node
/-!
# Lexical scope

The declarations that are visible at a place of a program are those that precede it and whose scope
encloses it. A variable is visible behind its declaration, to the end of the block; a parameter in the
body of its function, the variable of a loop in the rest of its header and in the body, and a function
in its own body as well. A tree is lexical if every use of an entity is one of the only visible
declaration with its name, and if no name is declared where it is visible already.
-/

namespace LemonScript

inductive Entity
  | var (v : Variable)
  | fn (f : Function)

namespace Entity

def name : Entity → String
  | var v => v.name
  | fn f => f.name

def id : Entity → Int
  | var v => v.id
  | fn f => f.id

def ty : Entity → Ty
  | var v => v.type
  | fn f => f.ty

end Entity

def Library.entities : List Entity :=
  Library.functions.map .fn ++ Library.constants.map .var

namespace Lexical

def Denotes (Γ : List Entity) (e : Entity) : Prop := Γ.filter (·.name == e.name) = [e]

/-- Neither a visible entity nor a type of the library has the name. -/
def Fresh (Γ : List Entity) (name : String) : Prop :=
  name ∉ Library.types.map Prod.fst ∧ name ∉ Γ.map Entity.name

/-- The declarations that are visible behind a statement. -/
def behind (Γ : List Entity) : Node → List Entity
  | .varDecl _ _ _ _ _ (some v) => .var v :: Γ
  | .funDecl _ _ _ _ _ (some f) => .fn f :: Γ
  | _ => Γ

def parameterEntities (params : List Parameter) : List Entity :=
  ((params.filterMap (·.entity)).map .var).reverse

mutual

def Expression (Γ : List Entity) : Node → Prop
  | .var v => Denotes Γ (.var v)
  | .fn f => Denotes Γ (.fn f)
  | .intLit _ | .floatLit _ | .stringLit _ | .boolLit .. => True
  | .binary left _ right _ => Expression Γ left ∧ Expression Γ right
  | .unary _ operand _ _ => Expression Γ operand
  | .call callee args _ => Expression Γ callee ∧ Optional Γ args
  | .arrayLit elements _ => Optional Γ elements
  | .mapLit entries _ => Entries Γ entries
  | .member array _ _ => Expression Γ array
  | .property map key _ => Expression Γ map ∧ Expression Γ key
  | _ => False

def Expressions (Γ : List Entity) : List Node → Prop
  | [] => True
  | n :: ns => Expression Γ n ∧ Expressions Γ ns

def Optional (Γ : List Entity) : Option (List Node) → Prop
  | none => True
  | some ns => Expressions Γ ns

def Entries (Γ : List Entity) : List (Entry Node) → Prop
  | [] => True
  | ⟨key, value⟩ :: rest => Expression Γ key ∧ Expression Γ value ∧ Entries Γ rest

end

/-- Each parameter declares a variable of its name and type, which none before it has. -/
def Parameters (Γ : List Entity) : List Parameter → Prop
  | [] => True
  | p :: ps => Fresh Γ p.name ∧ ∃ v : Variable, p.entity = some v ∧ v.name = p.name ∧
      v.isConst = false ∧ v.type = p.type ∧ Parameters (.var v :: Γ) ps

mutual

def Statement (Γ : List Entity) : Node → Prop
  | .varDecl type name init isConst _ entity =>
    Fresh Γ name ∧ (init = .missing ∨ Expression Γ init) ∧
      ∃ v : Variable, entity = some v ∧ v.name = name ∧ v.isConst = isConst ∧ v.type = type
  | .assign target source => Expression Γ target ∧ Expression Γ source
  | .funDecl name _ result params body entity =>
    Fresh Γ name ∧ ∃ f ps, entity = some f ∧ params = some ps ∧ f.name = name ∧
      f.signature = some ⟨ps.map (·.type), result⟩ ∧ Parameters (.fn f :: Γ) ps ∧
      Block (parameterEntities ps ++ .fn f :: Γ) body
  | .ifElse cases otherwise => Arms Γ cases ∧ Block Γ otherwise
  | .whileLoop condition body => Expression Γ condition ∧ Block Γ body
  | .forLoop name init condition step body entity =>
    Fresh Γ name ∧ Expression Γ init ∧ ∃ v : Variable, entity = some v ∧ v.name = name ∧
      v.isConst = false ∧ v.type = .int ∧ Expression (.var v :: Γ) condition ∧
      Expression (.var v :: Γ) step ∧ Block (.var v :: Γ) body
  | .switch scrutinee cases default => Expression Γ scrutinee ∧ Arms Γ cases ∧ Block Γ default
  | .giveBack value => Expression Γ value
  | .giveBackNothing | .chop | .next => True
  | n => Expression Γ n

def Statements (Γ : List Entity) : List Node → Prop
  | [] => True
  | n :: ns => Statement Γ n ∧ Statements (behind Γ n) ns

def Block (Γ : List Entity) : Option (List Node) → Prop
  | none => True
  | some ns => Statements Γ ns

def Arms (Γ : List Entity) : List (Arm Node) → Prop
  | [] => True
  | ⟨guard, body⟩ :: rest => Expression Γ guard ∧ Block Γ body ∧ Arms Γ rest

end

variable {Γ Δ : List Entity}

theorem Parameters.congr (h : Γ.map Entity.name = Δ.map Entity.name) {ps : List Parameter}
    (hps : Parameters Γ ps) : Parameters Δ ps := by
  induction ps generalizing Γ Δ with
  | nil => trivial
  | cons p ps ih =>
    obtain ⟨hfresh, v, hentity, hname, hconst, htype, hrest⟩ := hps
    refine ⟨⟨hfresh.1, h ▸ hfresh.2⟩, v, hentity, hname, hconst, htype, ih ?_ hrest⟩
    rw [List.map_cons, List.map_cons, h]

theorem parameterEntities_cons (t : Ty) (name : String) (v : Variable) (ps : List Parameter) :
    parameterEntities (⟨t, name, some v⟩ :: ps) ++ Γ = parameterEntities ps ++ .var v :: Γ := by
  simp [parameterEntities]

end Lexical

end LemonScript
