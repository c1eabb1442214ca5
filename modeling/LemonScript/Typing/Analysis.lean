import LemonScript.Typing.Check
/-!
# Analysis

Analysis resolves names and checks types. It gives back the program with entities in the place of
identifiers and with a type on every expression.
-/

namespace LemonScript

namespace Analysis

def binaryType (left : Node) (op : BinaryOp) (right : Node) : Analysis Ty := do
  match op with
  | .and | .or =>
    expect .boolean left
    expect .boolean right
    return .boolean
  | .add | .addAssign =>
    expect .numberOrString left
    sameType left right
    return left.typeOf
  | .sub | .mul | .div | .mod | .pow | .subAssign =>
    expect .number left
    sameType left right
    return left.typeOf
  | .less | .lessEq | .greater | .greaterEq =>
    expect .numberOrString left
    sameType left right
    return .boolean
  | .equal | .notEqual =>
    sameType left right
    return .boolean
  | .other spelling => fault (.unknownOperator spelling)

def compoundTarget (left : Node) (op : BinaryOp) : Analysis Unit :=
  match op with
  | .addAssign | .subAssign => notConstant left
  | _ => pure ()

def unaryType (op : UnaryOp) (operand : Node) : Analysis Ty := do
  match op with
  | .not =>
    expect .boolean operand
    return .boolean
  | .increment | .decrement =>
    expect .number operand
    notConstant operand
    return operand.typeOf
  | .neg | .other _ =>
    expect .number operand
    return operand.typeOf

def declareParameters : List Parameter → Analysis (List Parameter)
  | [] => return []
  | p :: ps => do
    let type ← resolve p.type
    let v ← newVariable p.name false type
    declare v.name (.var v)
    let rest ← declareParameters ps
    return ⟨type, p.name, some v⟩ :: rest

def rebind (name : String) (m : Meaning) : Analysis Unit :=
  modify fun s => { s with names := s.names.map fun (n, old) => if n == name then (n, m) else (n, old) }

def arrayLiteral : List Node → Analysis Node
  | [] => return .arrayLit (some []) .emptyArray
  | first :: rest => do
    uniform .elements (first :: rest)
    return .arrayLit (some (first :: rest)) (.array first.typeOf)

def mapLiteral : List (Entry Node) → Analysis Node
  | [] => return .mapLit [] .emptyMap
  | first :: rest => do
    let entries := first :: rest
    uniform .keys (entries.map (·.key))
    uniform .values (entries.map (·.value))
    distinctKeys (entries.map (·.key))
    return .mapLit entries (.map first.key.typeOf first.value.typeOf)

/-- The signature of what a call calls. -/
def calleeSignature (callee : Node) : Analysis Signature :=
  match callee.typeOf with
  | .func params result => return ⟨params, result⟩
  | _ => reject .notCallable

mutual

def node (here : Surroundings) : Node → Analysis Node
  | .varDecl type name init isConst isStatic _ => do
    let init ← if init.isMissing then pure none else some <$> node here init
    let type ← resolve type
    let v ← newVariable name isConst type
    match init with
    | some init => sameType (.var v) init
    | none => pure ()
    declare name (.var v)
    return .varDecl type name (init.getD .missing) isConst isStatic (some v)
  | .assign target source => do
    let source ← node here source
    let target ← node here target
    assignableTo source target.typeOf
    notConstant target
    return .assign target source
  | .funDecl name isStatic result params body _ => do
    let result ← resolve result
    let id ← freshId
    let outer := (← get).names
    declare name (.fn ⟨id, name, none⟩)
    let params ← declareParameters (params.getD [])
    let f : Function := ⟨id, name, some ⟨params.map (·.type), result⟩⟩
    rebind name (.fn f)
    let body ← block ⟨false, some result⟩ body
    modify fun s => { s with names := (name, .fn f) :: outer }
    return .funDecl name isStatic result (some params) body (some f)
  | .call callee args _ => do
    let callee ← node here callee
    let signature ← calleeSignature callee
    let args ← block here args
    let passed := args.getD []
    require (passed.length == signature.params.length)
      (.argumentCount signature.params.length passed.length)
    argumentsFit passed signature.params
    return .call callee args signature.result
  | .ifElse cases otherwise => do
    let cases ← ifCases here cases
    let otherwise ← inBlock (block here otherwise)
    return .ifElse cases otherwise
  | .whileLoop condition body => do
    let condition ← node here condition
    expect .boolean condition
    let body ← inBlock (block { here with inLoop := true } body)
    return .whileLoop condition body
  | .forLoop name init condition step body _ => do
    let init ← node here init
    expect .integer init
    inBlock do
      let v ← newVariable name false .int
      declare name (.var v)
      let condition ← node { here with inLoop := true } condition
      expect .boolean condition
      let step ← node { here with inLoop := true } step
      let body ← block { here with inLoop := true } body
      return .forLoop name init condition step body (some v)
  | .switch scrutinee cases default => do
    let scrutinee ← node here scrutinee
    let cases ← switchCases here cases
    require (cases.all fun c => c.guard.typeOf.equivalent scrutinee.typeOf) .caseMismatch
    let default ← inBlock (block here default)
    return .switch scrutinee cases default
  | .classDecl .. => reject .classDeclared
  | .giveBack value =>
    match here.result with
    | none => reject .returnOutsideFunction
    | some .void => reject .valueUnwanted
    | some result => do
      let value ← node here value
      assignableTo value result
      return .giveBack value
  | .giveBackNothing =>
    match here.result with
    | none => reject .returnOutsideFunction
    | some .void => return .giveBackNothing
    | some _ => reject .valueMissing
  | .chop => do
    require here.inLoop .chopOutsideLoop
    return .chop
  | .next => do
    require here.inLoop .nextOutsideLoop
    return .next
  | .binary left op right _ => do
    let left ← node here left
    let right ← node here right
    let type ← binaryType left op right
    compoundTarget left op
    return .binary left op right type
  | .unary op operand leading _ => do
    let operand ← node here operand
    let type ← unaryType op operand
    return .unary op operand leading type
  | .arrayLit elements _ => do
    let elements ← block here elements
    arrayLiteral (elements.getD [])
  | .mapLit entries _ => do
    let entries ← mapEntries here entries
    mapLiteral entries
  | .member array index _ => do
    let array ← node here array
    match array.typeOf, index with
    | .array member, some index => return .member array (some index) member
    | .array _, none => fault .absentIndex
    | _, _ => reject .arrayExpected
  | .property map key _ => do
    let map ← node here map
    match map.typeOf with
    | .map keyType valueType =>
      let key ← node here key
      require (key.typeOf.equivalent keyType) (.wrongKey keyType key.typeOf)
      return .property map key valueType
    | _ => reject .mapExpected
  | .ident name => identifier name
  | .intLit value => return .intLit value
  | .floatLit value => return .floatLit value
  | .stringLit value => return .stringLit value
  | .boolLit name value _ => return .boolLit name value .boolean
  | .var v => return .var v
  | .fn f => return .fn f
  | .program imports statements => fault (.ofNode (.program imports statements))
  | .importing clause => fault (.ofNode (.importing clause))
  | .parameter p => fault (.ofNode (.parameter p))
  | .ifCase arm => fault (.ofNode (.ifCase arm))
  | .switchCase arm => fault (.ofNode (.switchCase arm))
  | .entry pair => fault (.ofNode (.entry pair))
  | .missing => fault (.ofNode .missing)

def nodes (here : Surroundings) : List Node → Analysis (List Node)
  | [] => return []
  | n :: ns => do
    let n ← node here n
    let ns ← nodes here ns
    return n :: ns

/-- Analyzes a list of nodes; an absent one stays absent. -/
def block (here : Surroundings) : Option (List Node) → Analysis (Option (List Node))
  | none => return none
  | some ns => do return some (← nodes here ns)

/-- Analyzes conditions with the blocks that they guard. -/
def ifCases (here : Surroundings) : List (Arm Node) → Analysis (List (Arm Node))
  | [] => return []
  | ⟨guard, body⟩ :: rest => do
    let guard ← node here guard
    expect .boolean guard
    let body ← inBlock (block here body)
    let rest ← ifCases here rest
    return ⟨guard, body⟩ :: rest

def switchCases (here : Surroundings) : List (Arm Node) → Analysis (List (Arm Node))
  | [] => return []
  | ⟨guard, body⟩ :: rest => do
    let guard ← node here guard
    let body ← inBlock (block here body)
    let rest ← switchCases here rest
    return ⟨guard, body⟩ :: rest

def mapEntries (here : Surroundings) : List (Entry Node) → Analysis (List (Entry Node))
  | [] => return []
  | ⟨key, value⟩ :: rest => do
    let key ← node here key
    let value ← node here value
    let rest ← mapEntries here rest
    return ⟨key, value⟩ :: rest

end

end Analysis

/-- Resolves the names of a program and checks its types. -/
def Program.analyze (p : Program) : Except AnalysisError Program := do
  let (statements, _) ← (Analysis.block ⟨false, none⟩ p.statements).run Scope.initial
  return ⟨p.imports, statements⟩

end LemonScript
