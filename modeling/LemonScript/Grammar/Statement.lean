import LemonScript.Grammar.Expression
/-!
# Statements in the source

A statement is the first of sixteen forms that matches. Blocks stand between `BEGIN JUICING` and
`END JUICING`, and only the body of a function may be empty.
-/

namespace LemonScript

open Rule

namespace Grammar

def statements (g : Rules) : Rule (List Node) := many g.statement g.limit

def presentIfAny (nodes : List Node) : Option (List Node) :=
  if nodes.isEmpty then none else some nodes

def variableDeclaration (g : Rules) : Rule Node := do
  let isConst := (← attempt (keyword .const)).isSome
  let isStatic := (← attempt (keyword .static)).isSome
  let type ← type g
  let name ← identifier
  let init ← attempt (rewinding (do operator "="; expression g))
  return .varDecl type name (init.getD .missing) isConst isStatic none

def assignment (g : Rules) : Rule Node := do
  let target ← reference g
  operator "="
  let source ← expression g
  return .assign target source

def switchCase (g : Rules) : Rule (Arm Node) := do
  let start ← mark
  keyword .case
  let guard ← onFailure start (expression g)
  let body ← statements g
  return ⟨guard, presentIfAny body⟩

def switch (g : Rules) : Rule Node := do
  keyword .switch
  operator "("
  let scrutinee ← reference g
  operator ")"
  keyword .beginBlock
  let cases ← many (switchCase g) g.limit
  if cases.isEmpty then fail
  let default ← attempt (do keyword .default; statements g)
  keyword .endBlock
  return .switch scrutinee cases default

def call (g : Rules) : Rule Node := do
  let callee ← reference g
  let args ← argumentList g
  return .call callee (some args) .nothing

def parameter (g : Rules) : Rule Parameter := rewinding do
  let type ← bindingType g
  let name ← identifier
  return ⟨type, name, none⟩

def parameters (g : Rules) : Rule (List Parameter) := separated (parameter g) g.limit

def block (g : Rules) (mayBeEmpty : Bool) : Rule (List Node) := do
  keyword .beginBlock
  let body ← statements g
  if body.isEmpty && !mayBeEmpty then fail
  keyword .endBlock
  return body

def functionDeclaration (g : Rules) : Rule Node := do
  keyword .function
  let isStatic := (← attempt (keyword .static)).isSome
  let result ← (do keyword .voidType; return .named Keyword.voidType.spelling) <|> bindingType g
  let name ← identifier
  operator "("
  let params ← parameters g
  operator ")"
  let body ← block g true
  return .funDecl name isStatic result (some params) (some body) none

def guardedBlock (g : Rules) : Rule (Arm Node) := do
  let guard ← parenthesized g
  let body ← block g false
  return ⟨guard, some body⟩

def ifElse (g : Rules) : Rule Node := do
  keyword .ifThen
  let first ← guardedBlock g
  let others ← many (do
    let start ← mark
    keyword .elseIf
    onFailure start (guardedBlock g)) g.limit
  let start ← mark
  let otherwise ← attempt (do
    keyword .otherwise
    onFailure start (block g false))
  return .ifElse (first :: others) otherwise

def whileLoop (g : Rules) : Rule Node := do
  keyword .whileLoop
  let arm ← guardedBlock g
  return .whileLoop arm.guard arm.body

def compound (g : Rules) (target : Node) (op : BinaryOp) : Rule Node := rewinding do
  operator op.spelling
  let e ← additive g
  return .binary target op e .nothing

/-- `x++` and `x--`. -/
def crement (target : Node) (op : UnaryOp) : Rule Node := do
  operator op.spelling
  return .unary op target false .nothing

/-- A statement or a step of a loop that changes a variable in place. -/
def update (g : Rules) : Rule Node := do
  let target := Node.ident (← identifier)
  compound g target .addAssign <|> compound g target .subAssign
    <|> crement target .increment <|> crement target .decrement

def forLoop (g : Rules) : Rule Node := do
  keyword .forLoop
  operator "("
  keyword .intType
  let name ← identifier
  operator "="
  let init ← expression g
  operator ";"
  let condition ← expression g
  operator ";"
  let step ← update g
  operator ")"
  let body ← block g false
  return .forLoop name init condition step (some body) none

def classDeclaration (g : Rules) : Rule Node := do
  keyword .classDecl
  let name ← identifier
  let start ← mark
  let parent ← attempt (do
    keyword .extending
    onFailure start identifier)
  keyword .beginBlock
  keyword .plant
  operator "("
  let params ← parameters g
  operator ")"
  let plant ← block g false
  let body ← statements g
  keyword .endBlock
  return .classDecl name (parent.getD "") (some params) (some plant) (presentIfAny body)

def giveBack (g : Rules) : Rule Node := do
  keyword .giveBack
  match ← attempt (rewinding (expression g)) with
  | some e => return .giveBack e
  | none => return .giveBackNothing

def next : Rule Node := do
  keyword .next
  return .next

def chop : Rule Node := do
  keyword .chop
  return .chop

def statement (g : Rules) : Rule Node :=
  choice
    [variableDeclaration g, assignment g, switch g, call g, functionDeclaration g, ifElse g,
     whileLoop g, forLoop g, classDeclaration g, builtin g .pour, builtin g .species, giveBack g,
     update g, next, chop, expression g]

end Grammar

end LemonScript
