import LemonScript.Json.Value
import LemonScript.TypeInfo.Basic
/-!
# Type information in JSON

The description is written as a compact object; a package without a name is left out. Reading is
lenient: unknown members are ignored, the case of a member's name does not matter, and null stands
for a member that is not there.
-/

namespace LemonScript

namespace TypeInfo

def jsonMember (name value : String) : String :=
  jsonString .markup name ++ ":" ++ value

def jsonObject (members : List String) : String :=
  "\x7b" ++ ",".intercalate members ++ "\x7d"

def functionsJson : Option (List (String × String)) → String
  | none => "null"
  | some fs => jsonObject (fs.map fun (name, type) => jsonMember name (jsonString .markup type))

def toJson (t : TypeInfo) : String :=
  let package := if t.package == "" then [] else [jsonMember "package" (jsonString .markup t.package)]
  jsonObject (package ++ [jsonMember "functions" (functionsJson t.functions)])

/-! ### Reading -/

/-- The character that stands for all letters that differ from it only in case, for the letters that
the names of members are made of. -/
def foldCase (c : Char) : Char :=
  if c.toNat == 0x212A then 'k'
  else if c.toNat == 0x17F then 's'
  else c.toLower

def sameName (name member : String) : Bool :=
  name.toList.map foldCase == member.toList.map foldCase

/-- Reads the functions of an object into those that are known already. -/
def readFunctions (known : List (String × String)) :
    List (String × JsonValue) → Option (List (String × String))
  | [] => some known
  | (name, .string type) :: rest => readFunctions (put name type known) rest
  | (name, .null) :: rest => readFunctions (put name "" known) rest
  | _ => none

def readMember (t : TypeInfo) (name : String) (v : JsonValue) : Option TypeInfo :=
  if sameName "package" name then
    match v with
    | .string package => some { t with package }
    | .null => some t
    | _ => none
  else if sameName "functions" name then
    match v with
    | .object members =>
      (readFunctions (t.functions.getD []) members).map fun fs => { t with functions := some fs }
    | .null => some { t with functions := none }
    | _ => none
  else some t

def readMembers (t : TypeInfo) : List (String × JsonValue) → Option TypeInfo
  | [] => some t
  | (name, v) :: rest => (readMember t name v).bind fun t => readMembers t rest

def ofJson? (text : String) : Option TypeInfo :=
  match JsonValue.parse? text with
  | some .null => some ⟨"", none⟩
  | some (.object members) => readMembers ⟨"", none⟩ members
  | _ => none

end TypeInfo

end LemonScript
