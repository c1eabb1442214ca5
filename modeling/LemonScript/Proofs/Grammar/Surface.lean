import LemonScript.Proofs.Token.Scanner
import LemonScript.Syntax.Node
/-!
# The shape of trees that come from a source

A tree that was read from a source has no types and no entities yet. Expressions stand only where the
grammar has expressions, and the forms that change a variable in place stand only as whole statements
and as steps of loops. The blocks of conditions and loops are never empty.
-/

namespace LemonScript

def StartsWithLetter (name : String) : Prop := name.toList.head?.any isLetter = true

/-- The name is a word that starts with a letter, and none of the reserved words. -/
structure IsName (name : String) : Prop where
  letter : StartsWithLetter name
  word : ∀ c ∈ name.toList, isIdentifierChar c = true
  notReserved : ∀ k ∈ Keyword.reserved, name ≠ k.spelling

/-- The type is put together from names. -/
def Ty.Spelled : Ty → Prop
  | .named name => StartsWithLetter name
  | .array member => member.Spelled
  | .map key value => key.Spelled ∧ value.Spelled
  | _ => False

def BinaryOp.IsInfix : BinaryOp → Prop
  | .addAssign | .subAssign | .other _ => False
  | _ => True

def BinaryOp.IsUpdate : BinaryOp → Prop
  | .addAssign | .subAssign => True
  | _ => False

def UnaryOp.IsSign : UnaryOp → Prop
  | .neg | .not => True
  | _ => False

def UnaryOp.IsUpdate : UnaryOp → Prop
  | .increment | .decrement => True
  | _ => False

namespace Surface

variable {l : Option (List Node)}
variable {ns : List Node} {n : Node} {arms : List (Arm Node)}

mutual

def Reference : Node → Prop
  | .ident name => IsName name
  | .member v index type => Reference v ∧ (∃ k : Nat, index = some ↑k) ∧ type = .nothing
  | .property v key type => Reference v ∧ Expression key ∧ type = .nothing
  | _ => False

def Expression : Node → Prop
  | .ident name => IsName name
  | .member v index type => Reference v ∧ (∃ k : Nat, index = some ↑k) ∧ type = .nothing
  | .property v key type => Reference v ∧ Expression key ∧ type = .nothing
  | .binary left op right type => op.IsInfix ∧ Expression left ∧ Expression right ∧ type = .nothing
  | .unary op operand leading type => op.IsSign ∧ Expression operand ∧ leading ∧ type = .nothing
  | .call callee args type =>
    (Reference callee ∨ callee = .ident Keyword.species.spelling) ∧ Arguments args ∧ type = .nothing
  | .arrayLit elements type => Arguments elements ∧ type = .nothing
  | .mapLit entries type => Entries entries ∧ type = .nothing
  | .intLit value => 0 ≤ value
  | .boolLit name value type => Node.boolLit name value type = .ofBool value
  | .floatLit _ | .stringLit _ => True
  | _ => False

def Expressions : List Node → Prop
  | [] => True
  | n :: ns => Expression n ∧ Expressions ns

def Arguments : Option (List Node) → Prop
  | none => False
  | some ns => Expressions ns

def Entries : List (Entry Node) → Prop
  | [] => True
  | ⟨key, value⟩ :: rest => Expression key ∧ Expression value ∧ Entries rest

end

theorem expressions_iff : Expressions ns ↔ ∀ n ∈ ns, Expression n := by
  induction ns with
  | nil => simp [Expressions]
  | cons n ns ih => simp [Expressions, ih]

theorem entries_iff {es : List (Entry Node)} :
    Entries es ↔ ∀ e ∈ es, Expression e.key ∧ Expression e.value := by
  induction es with
  | nil => simp [Entries]
  | cons e es ih => simp [Entries, ih, and_assoc]

theorem Reference.expression (h : Reference n) : Expression n := by
  cases n <;> simp_all [Reference, Expression]

def Update : Node → Prop
  | .binary (.ident name) op right type =>
    IsName name ∧ op.IsUpdate ∧ Expression right ∧ type = .nothing
  | .unary op (.ident name) leading type => IsName name ∧ op.IsUpdate ∧ ¬ leading ∧ type = .nothing
  | _ => False

def IsParameter (p : Parameter) : Prop := p.type.Spelled ∧ IsName p.name ∧ p.entity = none

def Parameters (params : Option (List Parameter)) : Prop :=
  ∃ ps, params = some ps ∧ ∀ p ∈ ps, IsParameter p

mutual

def Statement : Node → Prop
  | .varDecl type name init _ _ entity =>
    type.Spelled ∧ IsName name ∧ (init = .missing ∨ Expression init) ∧ entity = none
  | .assign target source => Reference target ∧ Expression source
  | .funDecl name _ result params body entity =>
    result.Spelled ∧ IsName name ∧ Parameters params ∧ Present body ∧ entity = none
  | .ifElse cases otherwise => cases ≠ [] ∧ Branches cases ∧ Optional otherwise
  | .whileLoop condition body => Expression condition ∧ Body body
  | .forLoop name init condition step body entity =>
    IsName name ∧ Expression init ∧ Expression condition ∧ Update step ∧ Body body ∧ entity = none
  | .switch scrutinee cases default =>
    Reference scrutinee ∧ cases ≠ [] ∧ Clauses cases ∧ Default default
  | .classDecl name parent params plant body =>
    IsName name ∧ (parent = "" ∨ IsName parent) ∧ Parameters params ∧ Body plant ∧ Optional body
  | .giveBack value => Expression value
  | .giveBackNothing | .chop | .next => True
  | .call callee args type =>
    (Reference callee ∨ callee = .ident Keyword.species.spelling ∨ callee = .ident Keyword.pour.spelling)
      ∧ Arguments args ∧ type = .nothing
  | n => Update n ∨ Expression n

def Statements : List Node → Prop
  | [] => True
  | n :: ns => Statement n ∧ Statements ns

def Present : Option (List Node) → Prop
  | none => False
  | some ns => Statements ns

def Body : Option (List Node) → Prop
  | some (n :: ns) => Statement n ∧ Statements ns
  | _ => False

def Optional : Option (List Node) → Prop
  | none => True
  | some (n :: ns) => Statement n ∧ Statements ns
  | some [] => False

def Default : Option (List Node) → Prop
  | none => True
  | some ns => Statements ns

def Branches : List (Arm Node) → Prop
  | [] => True
  | ⟨guard, body⟩ :: rest => Expression guard ∧ Body body ∧ Branches rest

def Clauses : List (Arm Node) → Prop
  | [] => True
  | ⟨guard, body⟩ :: rest => Expression guard ∧ Optional body ∧ Clauses rest

end

theorem statements_iff : Statements ns ↔ ∀ n ∈ ns, Statement n := by
  induction ns with
  | nil => simp [Statements]
  | cons n ns ih => simp [Statements, ih]

theorem optional_iff : Optional l ↔ l ≠ some [] ∧ ∀ n ∈ l.getD [], Statement n := by
  rcases l with _ | _ | ⟨n, ns⟩
  · simp [Optional]
  · simp [Optional]
  · simp [Optional, statements_iff]

theorem branches_iff : Branches arms ↔ ∀ a ∈ arms, Expression a.guard ∧ Body a.body := by
  induction arms with
  | nil => simp [Branches]
  | cons a arms ih => simp [Branches, ih, and_assoc]

theorem clauses_iff : Clauses arms ↔ ∀ a ∈ arms, Expression a.guard ∧ Optional a.body := by
  induction arms with
  | nil => simp [Clauses]
  | cons a arms ih => simp [Clauses, ih, and_assoc]

theorem Present.default (h : Present l) : Default l := by
  cases l with
  | none => trivial
  | some ns => exact h

theorem Body.default (h : Body l) : Default l := by
  rcases l with _ | _ | ⟨n, ns⟩
  · trivial
  · trivial
  · exact h

theorem Optional.default (h : Optional l) : Default l := by
  rcases l with _ | _ | ⟨n, ns⟩
  · trivial
  · trivial
  · exact h

theorem Expression.statement (h : Expression n) : Statement n := by
  cases n with
  | call =>
    simp only [Expression] at h
    simp only [Statement]
    exact ⟨by rcases h.1 with h | h <;> simp [h], h.2⟩
  | _ => first | exact Or.inr h | simp only [Expression] at h

end Surface

/-- The shape of a program that was read from a source. -/
structure Program.Surface (p : Program) : Prop where
  imports : ∀ i ∈ p.imports, IsName i.name ∧ IsName i.source
  statements : LemonScript.Surface.Optional p.statements

end LemonScript
