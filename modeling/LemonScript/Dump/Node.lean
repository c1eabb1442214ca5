import LemonScript.Dump.Layout
import LemonScript.Number.FloatText
import LemonScript.Text.Quoted
import LemonScript.TypeInfo.Basic
/-!
# Showing trees

A tree is shown with the names of its nodes' kinds and of their fields, for a look at what a stage of
the compiler gives. Empty texts, zeros, false and empty places are left out.
-/

namespace LemonScript

namespace Layout

def textField (name value : String) : List (String × Layout) :=
  if value == "" then [] else [(name, atom (quoted value))]

def flagField (name : String) (value : Bool) : List (String × Layout) :=
  if value then [(name, atom "true")] else []

def numberField (name : String) (value : Int) : List (String × Layout) :=
  if value == 0 then [] else [(name, atom (toString value))]

def floatField (name : String) (value : Float) : List (String × Layout) :=
  if value == 0 then [] else [(name, atom (floatText value))]

/-- The words of 64 bits of a number, the lowest first; `fuel` bounds their number. -/
def words : (fuel n : Nat) → List Nat
  | 0, _ => []
  | fuel + 1, n => if n == 0 then [] else n % 2 ^ 64 :: words fuel (n / 2 ^ 64)

/-- An integer of any size, by its sign and its words. -/
def ofInt (value : Int) : Layout :=
  let parts := (words (Nat.log2 value.natAbs / 64 + 1) value.natAbs).map fun w =>
    atom ("big.Word(" ++ toString w ++ ")")
  record "&big.Int"
    (flagField "neg" (value < 0) ++
      optionalField "abs" (nonempty "big.nat" parts))

end Layout

open Layout

mutual

def Ty.layout? : Ty → Option Layout
  | .nothing => none
  | .base b => some (record "&ast.PrimitiveType" (textField "Name" b.text))
  | .array member => some (record "&ast.ArrayType" (optionalField "MemberType" member.layout?))
  | .map key value =>
    some (record "&ast.MapType"
      (optionalField "KeyType" key.layout? ++ optionalField "ValueType" value.layout?))
  | .func params result =>
    some (record "&ast.FunctionType"
      (optionalField "ParamTypes" (listOf "[]ast.Type" (some (Ty.layouts params))) ++
        optionalField "ReturnType" result.layout?))
  | .named name => some (record "&ast.TypeName" (textField "Name" name))

def Ty.layouts : List Ty → List Layout
  | [] => []
  | t :: ts => t.layout?.getD (atom "nil") :: Ty.layouts ts

end

def Variable.layout (v : Variable) : Layout :=
  record "&ast.Variable"
    (numberField "ID" v.id ++ textField "Name" v.name ++ flagField "IsConst" v.isConst ++
      optionalField "Type" v.type.layout?)

def Function.layout (f : Function) : Layout :=
  record "&ast.Function"
    (numberField "ID" f.id ++ textField "Name" f.name ++
      optionalField "Type" (f.signature.bind fun s => s.ty.layout?))

def Import.fields (i : Import) : List (String × Layout) :=
  textField "Name" i.name ++ textField "From" i.source

def Parameter.fields (p : Parameter) : List (String × Layout) :=
  optionalField "Type" p.type.layout? ++ textField "Name" p.name ++
    optionalField "Variable" (p.entity.map Variable.layout)

def Layout.ofParameters (params : Option (List Parameter)) : Option Layout :=
  listOf "[]*ast.Parameter" (params.map fun ps => ps.map fun p => record "" p.fields)

def Layout.ofImports (imports : List Import) : Option Layout :=
  nonempty "[]*ast.Import" (imports.map fun i => record "" i.fields)

mutual

/-- A node, as it is shown; an empty place is not shown. -/
def Node.layout? : Node → Option Layout
  | .missing => none
  | .program imports statements =>
    some (record "&ast.Program"
      (optionalField "Imports" (ofImports imports) ++
        optionalField "Statements" (Node.listLayout statements)))
  | .importing i => some (record "&ast.Import" i.fields)
  | .classDecl name parent params plant body =>
    some (record "&ast.ClassDeclaration"
      (textField "Name" name ++ textField "Extends" parent ++
        optionalField "Params" (ofParameters params) ++
        optionalField "Constructor" (Node.listLayout plant) ++
        optionalField "Body" (Node.listLayout body)))
  | .varDecl type name init isConst isStatic entity =>
    some (record "&ast.VariableDeclaration"
      (optionalField "Type" type.layout? ++ textField "Name" name ++
        optionalField "Init" init.layout? ++ flagField "IsConst" isConst ++
        flagField "IsStatic" isStatic ++ optionalField "Variable" (entity.map Variable.layout)))
  | .assign target source =>
    some (record "&ast.Assignment"
      (optionalField "Target" target.layout? ++ optionalField "Source" source.layout?))
  | .funDecl name isStatic result params body entity =>
    some (record "&ast.FunctionDeclaration"
      (textField "Name" name ++ flagField "IsStatic" isStatic ++
        optionalField "ReturnType" result.layout? ++ optionalField "Params" (ofParameters params) ++
        optionalField "Body" (Node.listLayout body) ++
        optionalField "Function" (entity.map Function.layout)))
  | .parameter p => some (record "&ast.Parameter" p.fields)
  | .call callee args type =>
    some (record "&ast.Call"
      (optionalField "Callee" callee.layout? ++ optionalField "Args" (Node.listLayout args) ++
        optionalField "Type" type.layout?))
  | .ifElse cases otherwise =>
    some (record "&ast.IfStatement"
      (optionalField "Cases" (nonempty "[]*ast.IfCase" (armLayouts "Condition" "Body" cases)) ++
        optionalField "ElseBlock" (Node.listLayout otherwise)))
  | .ifCase ⟨guard, body⟩ =>
    some (record "&ast.IfCase"
      (optionalField "Condition" guard.layout? ++ optionalField "Body" (Node.listLayout body)))
  | .whileLoop condition body =>
    some (record "&ast.WhileStatement"
      (optionalField "Condition" condition.layout? ++ optionalField "Body" (Node.listLayout body)))
  | .forLoop name init condition step body entity =>
    some (record "&ast.ForStatement"
      (textField "Name" name ++ optionalField "Init" init.layout? ++
        optionalField "Condition" condition.layout? ++ optionalField "Step" step.layout? ++
        optionalField "Body" (Node.listLayout body) ++
        optionalField "Variable" (entity.map Variable.layout)))
  | .switch scrutinee cases default =>
    some (record "&ast.SwitchStatement"
      (optionalField "Expression" scrutinee.layout? ++
        optionalField "Cases"
          (nonempty "[]*ast.SwitchCase" (armLayouts "CaseExpression" "Statements" cases)) ++
        optionalField "DefaultCase" (Node.listLayout default)))
  | .switchCase ⟨guard, body⟩ =>
    some (record "&ast.SwitchCase"
      (optionalField "CaseExpression" guard.layout? ++
        optionalField "Statements" (Node.listLayout body)))
  | .giveBack value =>
    some (record "&ast.ReturnStatement" (optionalField "Expression" value.layout?))
  | .giveBackNothing => some (unit "&ast.ShortReturnStatement")
  | .chop => some (unit "&ast.Break")
  | .next => some (unit "&ast.Continue")
  | .binary left op right type =>
    some (record "&ast.BinaryExpression"
      (optionalField "Left" left.layout? ++ textField "Op" op.spelling ++
        optionalField "Right" right.layout? ++ optionalField "Type" type.layout?))
  | .unary op operand leading type =>
    some (record "&ast.UnaryExpression"
      (textField "Op" op.spelling ++ optionalField "Operand" operand.layout? ++
        flagField "Prefix" leading ++ optionalField "Type" type.layout?))
  | .arrayLit elements type =>
    some (record "&ast.ArrayLiteral"
      (optionalField "Elements" (Node.listLayout elements) ++ optionalField "Type" type.layout?))
  | .mapLit entries type =>
    some (record "&ast.MapLiteral"
      (optionalField "Pairs" (listOf "[]*ast.KeyValue" (some (entryLayouts entries))) ++
        optionalField "Type" type.layout?))
  | .entry ⟨key, value⟩ =>
    some (record "&ast.KeyValue"
      (optionalField "Key" key.layout? ++ optionalField "Value" value.layout?))
  | .member array index type =>
    some (record "&ast.MemberExpression"
      (optionalField "Array" array.layout? ++
        optionalField "Index"
          (index.map fun i => record "&ast.IntLiteral" [("Value", ofInt i)]) ++
        optionalField "Type" type.layout?))
  | .property map key type =>
    some (record "&ast.PropertyExpression"
      (optionalField "Map" map.layout? ++ optionalField "Key" key.layout? ++
        optionalField "Type" type.layout?))
  | .ident name => some (record "&ast.Identifier" (textField "Name" name))
  | .intLit value => some (record "&ast.IntLiteral" [("Value", ofInt value)])
  | .floatLit value => some (record "&ast.FloatLiteral" (floatField "Value" value))
  | .stringLit value => some (record "&ast.StringLiteral" (textField "Value" value))
  | .boolLit name value type =>
    some (record "&ast.Bool"
      (textField "Name" name ++ flagField "Value" value ++ optionalField "Type" type.layout?))
  | .var v => some v.layout
  | .fn f => some f.layout

def Node.listLayout : Option (List Node) → Option Layout
  | none => none
  | some nodes => listOf "[]ast.Node" (some (Node.layouts nodes))

def Node.layouts : List Node → List Layout
  | [] => []
  | n :: ns => n.layout?.getD (atom "nil") :: Node.layouts ns

/-- The arms of a statement; `guard` and `body` name the parts of an arm. -/
def armLayouts (guard body : String) : List (Arm Node) → List Layout
  | [] => []
  | ⟨test, block⟩ :: arms =>
    record "" (optionalField guard test.layout? ++ optionalField body (Node.listLayout block)) ::
      armLayouts guard body arms

def entryLayouts : List (Entry Node) → List Layout
  | [] => []
  | ⟨key, value⟩ :: entries =>
    record "" (optionalField "Key" key.layout? ++ optionalField "Value" value.layout?) ::
      entryLayouts entries

end

def Program.shown (p : Program) : String :=
  match p.node.layout? with
  | some l => l.text 0
  | none => ""

/-- The functions of a description, as they are shown. -/
def Layout.ofFunctions : Option (List (String × String)) → Option Layout
  | none => none
  | some [] => some (unit "map[string]string")
  | some fs => some (record "map[string]string" (fs.map fun (name, type) => (quoted name, atom (quoted type))))

/-- A description of a program, as it is shown. -/
def TypeInfo.shown (t : TypeInfo) : String :=
  (record "typeinfo.TypeInfo"
    (textField "Package" t.package ++ optionalField "Functions" (ofFunctions t.functions))).text 0

end LemonScript
