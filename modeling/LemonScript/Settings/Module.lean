import LemonScript.Simplify.Statement
import LemonScript.Yaml.Node
import LemonScript.Yaml.Write
/-!
# Module settings

A directory of sources that is built as one program has a settings file. What a file leaves out has
the value nothing; the output is then named for the package.
-/

namespace LemonScript

structure ModuleSettings where
  package : String
  output : String
  optimize : Bool
  maxUnroll : Int
  logLevel : String
deriving Repr, DecidableEq, Inhabited

namespace ModuleSettings

def filename : String := "Lemon Module Information"

def new (name : String) : ModuleSettings where
  package := name
  output := name ++ ".js"
  optimize := true
  maxUnroll := SimplifyOptions.defaultMaxUnroll
  logLevel := "INFO"

/-- Settings that say nothing. -/
def blank : ModuleSettings := ⟨"", "", false, 0, ""⟩

/-! ### Writing -/

/-- A key with its value. The line is ended where the value has not ended it. -/
def line (key value : String) : String :=
  key ++ ": " ++ value ++ if value.toList.getLast?.any Yaml.isLineBreak then "" else "\n"

def textLine (key value : String) : String := line key (Yaml.scalarText (key.length + 2) value)

def optionalLine (key value : String) : String := if value == "" then "" else textLine key value

def text (m : ModuleSettings) : String :=
  textLine "Package" m.package ++ optionalLine "Output" m.output ++
    line "Optimize" (if m.optimize then "true" else "false") ++
    (if m.maxUnroll == 0 then "" else line "MaxUnroll" (toString m.maxUnroll)) ++
    optionalLine "LogLevel" m.logLevel

/-! ### Reading -/

/-- What a scalar stands for; between quotes it is text. -/
def resolved? : Yaml.Node → Option Yaml.Resolved
  | .scalar text plain => some (if plain then Yaml.resolve text else .text)
  | _ => none

/-- A text; a scalar that is no text is taken as it is written. -/
def textOf? : Yaml.Node → Option String
  | .scalar text plain =>
    match plain, Yaml.resolve text with
    | true, .null => some ""
    | _, _ => some text
  | _ => none

def boolOf? (n : Yaml.Node) : Option Bool :=
  match resolved? n with
  | some .null => some false
  | some (.bool value) => some value
  | _ => none

/-- The whole part of a double that fits in 64 bits; a smaller one stands for the least number. -/
def wholePart? (x : Float) : Option Int :=
  match Binary64.ofFloat x with
  | .notANumber => none
  | .infinite negative => if negative then some (-(Nat.pow 2 63)) else none
  | .finite negative m q =>
    let n : Int := if q < 0 then (m / Nat.pow 2 q.natAbs : Nat) else (m * Nat.pow 2 q.toNat : Nat)
    if negative then some (if n ≤ Nat.pow 2 63 then -n else -(Nat.pow 2 63))
    else if n < Nat.pow 2 63 then some n
    else if n == Nat.pow 2 63 then some (-(Nat.pow 2 63))
    else none

def intOf? (n : Yaml.Node) : Option Int :=
  match resolved? n with
  | some .null => some 0
  | some (.int value) => if value < Nat.pow 2 63 then some value else none
  | some (.float value) => wholePart? value
  | _ => none

/-- The settings with one entry of a file; an unknown key changes nothing. -/
def withEntry (m : ModuleSettings) (key : String) (value : Yaml.Node) : Option ModuleSettings :=
  match key with
  | "Package" => (textOf? value).map fun package => { m with package }
  | "Output" => (textOf? value).map fun output => { m with output }
  | "Optimize" => (boolOf? value).map fun optimize => { m with optimize }
  | "MaxUnroll" => (intOf? value).map fun maxUnroll => { m with maxUnroll }
  | "LogLevel" => (textOf? value).map fun logLevel => { m with logLevel }
  | _ => some m

/-- Whether a key asks for the entries of another mapping, of which there is none in a flat file. -/
def isMergeKey : Yaml.Node → Bool
  | .scalar text plain => plain && text == "<<"
  | _ => false

/-- The settings with the entries of a file, of which later ones win. -/
def withEntries (m : ModuleSettings) : List (Yaml.Node × Yaml.Node) → Option ModuleSettings
  | [] => some m
  | (key, value) :: rest =>
    if isMergeKey key then none
    else
      match textOf? key with
      | none => none
      | some name => (m.withEntry name value).bind fun m => m.withEntries rest

/-- The settings in a file, as they are written there. A file that holds nothing says nothing. -/
def written? (text : String) : Option ModuleSettings :=
  match Yaml.Node.parse? text with
  | some (.mapping entries) => blank.withEntries entries
  | some n =>
    match resolved? n with
    | some .null => some blank
    | _ => none
  | none => none

/-- Reads a settings file. -/
def parse? (text : String) : Option ModuleSettings :=
  (written? text).map fun m => if m.output == "" then { m with output := m.package ++ ".js" } else m

end ModuleSettings

end LemonScript
