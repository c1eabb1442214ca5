import LemonScript.Syntax.Node
/-!
# Properties of all nodes of a tree
-/

namespace LemonScript

namespace Node

mutual

def every (p : Node → Bool) : Node → Bool
  | n@(.program _ statements) => p n && everyIn p statements
  | n@(.classDecl _ _ _ plant body) => p n && (everyIn p plant && everyIn p body)
  | n@(.varDecl _ _ init _ _ _) => p n && every p init
  | n@(.assign target source) => p n && (every p target && every p source)
  | n@(.funDecl _ _ _ _ body _) => p n && everyIn p body
  | n@(.call callee args _) => p n && (every p callee && everyIn p args)
  | n@(.ifElse cases otherwise) => p n && (everyArm p cases && everyIn p otherwise)
  | n@(.ifCase ⟨guard, body⟩) => p n && (every p guard && everyIn p body)
  | n@(.whileLoop condition body) => p n && (every p condition && everyIn p body)
  | n@(.forLoop _ init condition step body _) =>
    p n && (every p init && (every p condition && (every p step && everyIn p body)))
  | n@(.switch scrutinee cases otherwise) =>
    p n && (every p scrutinee && (everyArm p cases && everyIn p otherwise))
  | n@(.switchCase ⟨guard, body⟩) => p n && (every p guard && everyIn p body)
  | n@(.giveBack value) => p n && every p value
  | n@(.binary left _ right _) => p n && (every p left && every p right)
  | n@(.unary _ operand _ _) => p n && every p operand
  | n@(.arrayLit elements _) => p n && everyIn p elements
  | n@(.mapLit entries _) => p n && everyEntry p entries
  | n@(.entry ⟨key, value⟩) => p n && (every p key && every p value)
  | n@(.member array _ _) => p n && every p array
  | n@(.property map key _) => p n && (every p map && every p key)
  | n => p n

def everyOf (p : Node → Bool) : List Node → Bool
  | [] => true
  | n :: ns => every p n && everyOf p ns

def everyIn (p : Node → Bool) : Option (List Node) → Bool
  | none => true
  | some ns => everyOf p ns

def everyArm (p : Node → Bool) : List (Arm Node) → Bool
  | [] => true
  | ⟨guard, body⟩ :: rest => every p guard && (everyIn p body && everyArm p rest)

def everyEntry (p : Node → Bool) : List (Entry Node) → Bool
  | [] => true
  | ⟨key, value⟩ :: rest => every p key && (every p value && everyEntry p rest)

end

end Node

end LemonScript
