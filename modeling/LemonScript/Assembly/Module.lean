import LemonScript.Assembly.Escape
/-!
# Assembly modules

The part of the assembly language that describes a compiled program: a source name, constants, and
declarations of functions.
-/

namespace LemonScript.Assembly

/-- The types of the assembly language. -/
inductive AsmType
  | void
  | int (bits : Nat)
  | double
  | pointer (target : AsmType)
  | array (size : Nat) (element : AsmType)
deriving Repr, DecidableEq, Inhabited

def AsmType.text : AsmType → String
  | void => "void"
  | int bits => "i" ++ bits.repr
  | double => "double"
  | pointer target => target.text ++ "*"
  | array size element => "[" ++ size.repr ++ " x " ++ element.text ++ "]"

inductive Constant
  | int (value : Int)
  | bytes (value : List UInt8)
deriving Repr, DecidableEq, Inhabited

structure Global where
  name : String
  isConst : Bool
  type : AsmType
  value : Constant
deriving Repr, DecidableEq, Inhabited

/-- The signature of a function that is defined elsewhere. -/
structure Declaration where
  name : String
  result : AsmType
  params : List (AsmType × String)
deriving Repr, DecidableEq, Inhabited

structure AsmModule where
  source : String
  globals : List Global
  declarations : List Declaration
deriving Repr, DecidableEq, Inhabited

def Constant.text : Constant → String
  | int value => toString value
  | bytes value => "c" ++ quotedBytes value

def Global.text (g : Global) : String :=
  "@" ++ nameText g.name ++ " = " ++ (if g.isConst then "constant " else "global ") ++ g.type.text ++
    " " ++ g.value.text ++ "\n"

def Declaration.text (d : Declaration) : String :=
  let params := d.params.map fun (type, name) => type.text ++ " %" ++ nameText name
  "declare " ++ d.result.text ++ " @" ++ nameText d.name ++ "(" ++ ", ".intercalate params ++ ")\n"

def AsmModule.parts (m : AsmModule) : List String :=
  (if m.source == "" then []
    else ["source_filename = " ++ quotedBytes m.source.toUTF8.toList ++ "\n"]) ++
  m.globals.map Global.text ++ m.declarations.map Declaration.text

/-- A module as it is written: an empty line stands between two parts. -/
def AsmModule.text (m : AsmModule) : String := "\n".intercalate m.parts

end LemonScript.Assembly
