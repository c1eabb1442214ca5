import LemonScript.Assembly.Module
import LemonScript.Assembly.Token
/-!
# Reading assembly modules

Main definition: `AsmModule.parse?`, which reads what `AsmModule.text` writes, with comments and
blanks between the tokens.
-/

namespace LemonScript.Assembly

def natural? (text : List Char) : Option Nat :=
  if !text.isEmpty && text.all isDigit then some (decimalValue text)
  else none

def integer? : List Char → Option Int
  | '-' :: digits => (natural? digits).map fun n => -(n : Int)
  | digits => (natural? digits).map fun n => (n : Int)

def wordType? : List Char → Option AsmType
  | 'i' :: bits => (natural? bits).map .int
  | word =>
    if word == "double".toList then some .double
    else if word == "void".toList then some .void
    else none

/-- A type behind which stars may stand. -/
def pointers (type : AsmType) : List AsmToken → AsmType × List AsmToken
  | .mark '*' :: rest => pointers (.pointer type) rest
  | rest => (type, rest)

/-- Reads a type; `fuel` bounds how deep arrays are nested. -/
def type? : (fuel : Nat) → List AsmToken → Option (AsmType × List AsmToken)
  | _, .word word :: rest => (wordType? word).map fun type => pointers type rest
  | fuel + 1, .mark '[' :: .word size :: .word ['x'] :: rest =>
    match natural? size, type? fuel rest with
    | some size, some (element, .mark ']' :: rest) => some (pointers (.array size element) rest)
    | _, _ => none
  | _, _ => none

def constant? : AsmType → List AsmToken → Option (Constant × List AsmToken)
  | .int _, .word word :: rest => (integer? word).map fun n => (.int n, rest)
  | .array size (.int 8), .bytes value :: rest =>
    if value.length == size then some (.bytes value, rest) else none
  | _, _ => none

/-- Reads the parameters of a declaration up to the closing bracket. -/
def params? : (fuel : Nat) → List AsmToken → Option (List (AsmType × String) × List AsmToken)
  | 0, _ => none
  | fuel + 1, tokens => do
    let (type, rest) ← type? fuel tokens
    let (name, rest) :=
      match rest with
      | .local name :: rest => (name, rest)
      | _ => ("", rest)
    match rest with
    | .mark ')' :: rest => return ([(type, name)], rest)
    | .mark ',' :: rest =>
      let (params, rest) ← params? fuel rest
      return ((type, name) :: params, rest)
    | _ => none

def part? (fuel : Nat) (m : AsmModule) : List AsmToken → Option (AsmModule × List AsmToken)
  | .global name :: .mark '=' :: .word kind :: rest => do
    guard (kind == "constant".toList || kind == "global".toList)
    let (type, rest) ← type? fuel rest
    let (value, rest) ← constant? type rest
    return ({ m with globals := m.globals ++ [⟨name, kind == "constant".toList, type, value⟩] }, rest)
  | .word word :: .mark '=' :: .text source :: rest => do
    guard (word == "source_filename".toList)
    return ({ m with source := decodeUtf8 source }, rest)
  | .word word :: rest => do
    guard (word == "declare".toList)
    match ← type? fuel rest with
    | (result, .global name :: .mark '(' :: .mark ')' :: rest) =>
      return ({ m with declarations := m.declarations ++ [⟨name, result, []⟩] }, rest)
    | (result, .global name :: .mark '(' :: rest) =>
      let (params, rest) ← params? fuel rest
      return ({ m with declarations := m.declarations ++ [⟨name, result, params⟩] }, rest)
    | _ => none
  | _ => none

def parts? : (fuel : Nat) → AsmModule → List AsmToken → Option AsmModule
  | _, m, [] => some m
  | 0, _, _ => none
  | fuel + 1, m, tokens => do
    let (m, rest) ← part? (fuel + 1) m tokens
    parts? fuel m rest

def AsmModule.names (m : AsmModule) : List String :=
  m.globals.map Global.name ++ m.declarations.map Declaration.name

def allDistinct : List String → Bool
  | [] => true
  | name :: names => !names.contains name && allDistinct names

/-- Reads a module. No name may be given twice. -/
def AsmModule.parse? (text : String) : Option AsmModule := do
  let tokens ← tokens? text
  let m ← parts? tokens.length ⟨"", [], []⟩ tokens
  guard (allDistinct m.names)
  return m

end LemonScript.Assembly
