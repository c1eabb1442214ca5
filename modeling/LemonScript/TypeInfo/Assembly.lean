import LemonScript.Assembly.Reader
import LemonScript.TypeInfo.Json
/-!
# Type information in assembly modules

The description of a program travels as a constant string in an assembly module that also declares
the program's functions.
-/

namespace LemonScript.TypeInfo

open Assembly

/-- The name of the constant that holds the description. -/
def symbol : String := "__lemon_types"

/-- Every value but a number, a truth value and text is seen from outside as an address. -/
def asmType : Ty → AsmType
  | .base .int => .int 64
  | .base .float => .double
  | .base .boolean => .int 1
  | .base .void | .nothing => .void
  | _ => .pointer (.int 8)

def declaration (e : Exported) : Declaration where
  name := e.name
  result := asmType e.signature.result
  params := (e.params.zip e.signature.params).map fun (p, type) => (asmType type, p.name)

/-- A constant that holds a text and a zero byte behind it. -/
def textGlobal (name text : String) : Global :=
  let bytes := text.toUTF8.toList ++ [0]
  ⟨name, true, .array bytes.length (.int 8), .bytes bytes⟩

def asmModule (package : String) (p : Program) : AsmModule where
  source := package
  globals := [textGlobal symbol (collect package p).toJson]
  declarations := (exports p).map declaration

/-! ### Reading -/

inductive ReadError
  | malformed
  | notString (file : String)
  | missing (file : String)
  | badJson
deriving Repr, DecidableEq

def ReadError.message : ReadError → String
  | notString file => symbol ++ " in " ++ file ++ " is not a string"
  | missing file => file ++ " has no " ++ symbol
  | malformed => "malformed assembly"
  | badJson => "malformed type information"

def trimmedText (bytes : List UInt8) : String :=
  decodeUtf8 (bytes.reverse.dropWhile (· == 0)).reverse

def readData (file text : String) : Except ReadError String :=
  match AsmModule.parse? text with
  | none => .error .malformed
  | some m =>
    match m.globals.find? fun g => g.name == symbol with
    | some ⟨_, _, _, .bytes value⟩ => .ok (trimmedText value)
    | some _ => .error (.notString file)
    | none => .error (.missing file)

def ofAssembly (file text : String) : Except ReadError TypeInfo := do
  let data ← readData file text
  match ofJson? data with
  | some t => .ok t
  | none => .error .badJson

end LemonScript.TypeInfo
