import LemonScript.Syntax.Entity
import LemonScript.Syntax.Operator
/-!
# Syntax trees

One kind of tree serves before and after analysis: analysis puts entities in the place of
identifiers and fills in the types. A place of a tree may be empty, which is `Node.missing`. A list
of nodes is either absent or present, and a present one may be empty: a switch without a default
clause differs from one whose default clause does nothing.
-/

namespace LemonScript

/-- A name taken from another module. -/
structure Import where
  name : String
  source : String
deriving Repr, BEq, Inhabited

/-- A parameter of a function; analysis adds its variable. -/
structure Parameter where
  type : Ty
  name : String
  entity : Option Variable
deriving Repr, BEq, Inhabited

/-- A block that runs for a condition of an `if` or for a value of a `switch`. -/
structure Arm (ν : Type) where
  guard : ν
  body : Option (List ν)
deriving Repr, BEq, Inhabited

structure Entry (ν : Type) where
  key : ν
  value : ν
deriving Repr, BEq, Inhabited

/-- A node of a syntax tree. -/
inductive Node
  | missing
  | program (imports : List Import) (statements : Option (List Node))
  | importing (clause : Import)
  | classDecl (name parent : String) (params : Option (List Parameter)) (plant body : Option (List Node))
  | varDecl (type : Ty) (name : String) (init : Node) (isConst isStatic : Bool) (entity : Option Variable)
  | assign (target source : Node)
  | funDecl (name : String) (isStatic : Bool) (result : Ty) (params : Option (List Parameter))
      (body : Option (List Node)) (entity : Option Function)
  | parameter (param : Parameter)
  | call (callee : Node) (args : Option (List Node)) (type : Ty)
  | ifElse (cases : List (Arm Node)) (otherwise : Option (List Node))
  | ifCase (arm : Arm Node)
  | whileLoop (condition : Node) (body : Option (List Node))
  | forLoop (name : String) (init condition step : Node) (body : Option (List Node)) (entity : Option Variable)
  | switch (scrutinee : Node) (cases : List (Arm Node)) (default : Option (List Node))
  | switchCase (arm : Arm Node)
  | giveBack (value : Node)
  | giveBackNothing
  | chop
  | next
  | binary (left : Node) (op : BinaryOp) (right : Node) (type : Ty)
  | unary (op : UnaryOp) (operand : Node) (leading : Bool) (type : Ty)
  | arrayLit (elements : Option (List Node)) (type : Ty)
  | mapLit (entries : List (Entry Node)) (type : Ty)
  | entry (pair : Entry Node)
  | member (array : Node) (index : Option Int) (type : Ty)
  | property (map key : Node) (type : Ty)
  | ident (name : String)
  | intLit (value : Int)
  | floatLit (value : Float)
  | stringLit (value : String)
  | boolLit (name : String) (value : Bool) (type : Ty)
  | var (entity : Variable)
  | fn (entity : Function)
deriving Inhabited

namespace Node

/-- The name of a node's kind; an empty place has none. -/
def kindName? : Node → Option String
  | missing => none
  | program .. => some "Program"
  | importing .. => some "Import"
  | classDecl .. => some "ClassDeclaration"
  | varDecl .. => some "VariableDeclaration"
  | assign .. => some "Assignment"
  | funDecl .. => some "FunctionDeclaration"
  | parameter .. => some "Parameter"
  | call .. => some "Call"
  | ifElse .. => some "IfStatement"
  | ifCase .. => some "IfCase"
  | whileLoop .. => some "WhileStatement"
  | forLoop .. => some "ForStatement"
  | switch .. => some "SwitchStatement"
  | switchCase .. => some "SwitchCase"
  | giveBack .. => some "ReturnStatement"
  | giveBackNothing => some "ShortReturnStatement"
  | chop => some "Break"
  | next => some "Continue"
  | binary .. => some "BinaryExpression"
  | unary .. => some "UnaryExpression"
  | arrayLit .. => some "ArrayLiteral"
  | mapLit .. => some "MapLiteral"
  | entry .. => some "KeyValue"
  | member .. => some "MemberExpression"
  | property .. => some "PropertyExpression"
  | ident .. => some "Identifier"
  | intLit .. => some "IntLiteral"
  | floatLit .. => some "FloatLiteral"
  | stringLit .. => some "StringLiteral"
  | boolLit .. => some "Bool"
  | var .. => some "Variable"
  | fn .. => some "Function"

def isMissing : Node → Bool
  | missing => true
  | _ => false

/-- The static type of an expression. Statements and names that are not resolved have none. -/
def typeOf : Node → Ty
  | intLit _ => .int
  | floatLit _ => .float
  | stringLit _ => .string
  | boolLit _ _ type => type
  | var v => v.type
  | fn f => f.ty
  | call _ _ type => type
  | binary _ _ _ type => type
  | unary _ _ _ type => type
  | arrayLit _ type => type
  | mapLit _ type => type
  | member _ _ type => type
  | property _ _ type => type
  | _ => .nothing

/-- The literal for a truth value. -/
def ofBool (value : Bool) : Node :=
  boolLit (if value then "sweet" else "sour") value .boolean

end Node

structure Program where
  imports : List Import
  statements : Option (List Node)
deriving Inhabited

def Program.node (p : Program) : Node := .program p.imports p.statements

end LemonScript
