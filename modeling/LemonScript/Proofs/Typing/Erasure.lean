import LemonScript.Library
import LemonScript.Proofs.Syntax.Every
import LemonScript.Proofs.Typing.TypeText
/-!
# Decoration and its erasure

Analysis decorates a tree with entities and types. Erasing the decoration turns an entity back into the
identifier that stood in its place and a declared type back into its spelling, and drops what had no
place in the source. The constant type of a truth value is no decoration, since every such literal is
read with it.
-/

namespace LemonScript

/-- A declared type as a program spells it. The types that cannot be declared have no spelling. -/
def Ty.erase : Ty → Ty
  | .int => .named Keyword.intType.spelling
  | .float => .named Keyword.floatType.spelling
  | .boolean => .named Keyword.boolType.spelling
  | .string => .named Keyword.stringType.spelling
  | .void => .named Keyword.voidType.spelling
  | .array member => .array member.erase
  | .map key value => .map key.erase value.erase
  | t => t

def Parameter.erase (p : Parameter) : Parameter := ⟨p.type.erase, p.name, none⟩

namespace Node

mutual

/-- The tree without what analysis adds to it. -/
def erase : Node → Node
  | program imports statements => program imports (eraseIn statements)
  | classDecl name parent params plant body =>
    classDecl name parent (params.map (·.map Parameter.erase)) (eraseIn plant) (eraseIn body)
  | varDecl type name init isConst isStatic _ =>
    varDecl type.erase name (erase init) isConst isStatic none
  | assign target source => assign (erase target) (erase source)
  | funDecl name isStatic result params body _ =>
    funDecl name isStatic result.erase (params.map (·.map Parameter.erase)) (eraseIn body) none
  | parameter p => parameter p.erase
  | call callee args _ => call (erase callee) (eraseIn args) .nothing
  | ifElse cases otherwise => ifElse (eraseArms cases) (eraseIn otherwise)
  | ifCase ⟨guard, body⟩ => ifCase ⟨erase guard, eraseIn body⟩
  | whileLoop condition body => whileLoop (erase condition) (eraseIn body)
  | forLoop name init condition step body _ =>
    forLoop name (erase init) (erase condition) (erase step) (eraseIn body) none
  | switch scrutinee cases default => switch (erase scrutinee) (eraseArms cases) (eraseIn default)
  | switchCase ⟨guard, body⟩ => switchCase ⟨erase guard, eraseIn body⟩
  | giveBack value => giveBack (erase value)
  | binary left op right _ => binary (erase left) op (erase right) .nothing
  | unary op operand leading _ => unary op (erase operand) leading .nothing
  | arrayLit elements _ => arrayLit (eraseIn elements) .nothing
  | mapLit entries _ => mapLit (eraseEntries entries) .nothing
  | entry ⟨key, value⟩ => entry ⟨erase key, erase value⟩
  | member array index _ => member (erase array) index .nothing
  | property map key _ => property (erase map) (erase key) .nothing
  | var v => ident v.name
  | fn f => ident f.name
  | n => n

def eraseAll : List Node → List Node
  | [] => []
  | n :: ns => erase n :: eraseAll ns

def eraseIn : Option (List Node) → Option (List Node)
  | none => none
  | some ns => some (eraseAll ns)

def eraseArms : List (Arm Node) → List (Arm Node)
  | [] => []
  | ⟨guard, body⟩ :: rest => ⟨erase guard, eraseIn body⟩ :: eraseArms rest

def eraseEntries : List (Entry Node) → List (Entry Node)
  | [] => []
  | ⟨key, value⟩ :: rest => ⟨erase key, erase value⟩ :: eraseEntries rest

end

theorem eraseAll_eq_map (ns : List Node) : eraseAll ns = ns.map erase := by
  induction ns with
  | nil => rfl
  | cons n ns ih => rw [eraseAll, ih, List.map_cons]

theorem getD_eraseIn (l : Option (List Node)) : (eraseIn l).getD [] = (l.getD []).map erase := by
  cases l with
  | none => rfl
  | some ns => exact eraseAll_eq_map ns

end Node

def Program.erase (p : Program) : Program := ⟨p.imports, Node.eraseIn p.statements⟩

/-! ### Decorated trees -/

/-- Whether a parameter has a resolved type and a variable of such a type. -/
def Parameter.isDecorated (p : Parameter) : Bool :=
  p.type.isResolved && p.entity.any (·.type.isResolved)

/-- Whether a node has all that analysis adds to it: declarations have their entities, expressions have
their types, and no name is left, neither of an entity nor in a type. -/
def Node.isDecorated : Node → Bool
  | .ident _ => false
  | .varDecl type _ _ _ _ entity => type.isResolved && entity.any (·.type.isResolved)
  | .funDecl _ _ result params _ entity =>
    result.isResolved && ((params.getD []).all Parameter.isDecorated && entity.any (·.ty.isResolved))
  | .classDecl _ _ params _ _ => (params.getD []).all Parameter.isDecorated
  | .parameter p => p.isDecorated
  | .forLoop _ _ _ _ _ entity => entity.any (·.type.isResolved)
  | n@(.call ..) | n@(.binary ..) | n@(.unary ..) | n@(.arrayLit ..) | n@(.mapLit ..)
  | n@(.member ..) | n@(.property ..) | n@(.intLit _) | n@(.floatLit _) | n@(.stringLit _)
  | n@(.boolLit ..) | n@(.var _) | n@(.fn _) => n.typeOf.isResolved
  | _ => true

def Program.isDecorated (p : Program) : Bool := Node.everyIn Node.isDecorated p.statements

end LemonScript
