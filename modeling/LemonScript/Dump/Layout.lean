/-!
# Indented records

A value is shown as a nest of records and lists, each part on a line of its own, two blanks further in
than what it is a part of.
-/

namespace LemonScript

/-- What a value is shown as. -/
inductive Layout
  | atom (text : String)
  | unit (head : String)
  | record (head : String) (fields : List (String × Layout))
  | list (head : String) (items : List Layout)
deriving Inhabited

namespace Layout

def indentation (depth : Nat) : String := "".pushn ' ' (2 * depth)

def braced (depth : Nat) (head : String) (lines : List String) : String :=
  head ++ "\x7b\n" ++ String.join (lines.map fun line => indentation (depth + 1) ++ line ++ ",\n") ++
    indentation depth ++ "\x7d"

mutual

def text (depth : Nat) : Layout → String
  | atom text => text
  | unit head => head ++ "\x7b" ++ indentation depth ++ "\x7d"
  | record head fields => braced depth head (fieldTexts (depth + 1) fields)
  | list head items => braced depth head (itemTexts (depth + 1) items)

def fieldTexts (depth : Nat) : List (String × Layout) → List String
  | [] => []
  | (name, value) :: rest => (name ++ ": " ++ value.text depth) :: fieldTexts depth rest

def itemTexts (depth : Nat) : List Layout → List String
  | [] => []
  | value :: rest => value.text depth :: itemTexts depth rest

end

/-! ### Fields

A field that holds nothing is left out. A list that is there but empty leaves no trace of its own. -/

/-- A field that is left out where there is no value. -/
def optionalField (name : String) : Option Layout → List (String × Layout)
  | some value => [(name, value)]
  | none => []

/-- A list that may be absent or empty. -/
def listOf (head : String) : Option (List Layout) → Option Layout
  | none => none
  | some [] => some (atom "")
  | some items => some (list head items)

/-- A list that is absent where it is empty. -/
def nonempty (head : String) (items : List Layout) : Option Layout :=
  if items.isEmpty then none else some (list head items)

end Layout

end LemonScript
