import LemonScript.Variants.Token
/-!
# Kinds and their variants

A kind is declared with the names of its variants. From the declarations a file of marker methods is
made, one for each variant of each kind.
-/

namespace LemonScript.Variants

structure Kind where
  name : String
  variants : List String
deriving Repr, DecidableEq, Inhabited

/-- Why no file is made. -/
inductive KindError
  | malformed
  | duplicate (kind variant : String)
deriving Repr, DecidableEq

def KindError.message : KindError → String
  | malformed => "malformed declaration"
  | duplicate kind variant => kind ++ " lists " ++ variant ++ " twice"

/-! ### Reading -/

/-- The variants behind the first one, up to the semicolon. -/
def moreVariants? : List Token → Option (List String × List Token)
  | .mark '|' :: .name v :: rest => (moreVariants? rest).map fun (vs, rest) => (v :: vs, rest)
  | .mark ';' :: rest => some ([], rest)
  | _ => none

/-- The variants of a kind. A bar may stand in front of the first one. -/
def variants? : List Token → Option (List String × List Token)
  | .mark '|' :: .name v :: rest | .name v :: rest =>
    (moreVariants? rest).map fun (vs, rest) => (v :: vs, rest)
  | _ => none

/-- Reads declarations until no token is left; `fuel` bounds their number. -/
def kinds? : (fuel : Nat) → List Token → Option (List Kind)
  | _, [] => some []
  | fuel + 1, .name "kind" :: .name name :: .mark '=' :: rest =>
    match variants? rest with
    | some (variants, rest) => (kinds? fuel rest).map fun kinds => ⟨name, variants⟩ :: kinds
    | none => none
  | _, _ => none

def parse? (text : String) : Option (List Kind) :=
  (tokens? text).bind fun tokens => kinds? tokens.length tokens

/-! ### Checking -/

/-- The first name that stands in a list for the second time. -/
def firstRepeated? (seen : List String) : List String → Option String
  | [] => none
  | v :: vs => if seen.contains v then some v else firstRepeated? (v :: seen) vs

def check : List Kind → Except KindError Unit
  | [] => .ok ()
  | k :: ks =>
    match firstRepeated? [] k.variants with
    | some v => .error (.duplicate k.name v)
    | none => check ks

/-! ### Writing -/

structure Marker where
  receiver : String
  name : String
deriving Repr, DecidableEq, Inhabited

def markers (kinds : List Kind) : List Marker :=
  kinds.flatMap fun k => k.variants.map fun v => ⟨v, "is_" ++ k.name⟩

/-- A method up to its body. -/
def Marker.head (m : Marker) : String :=
  "func (v *" ++ m.receiver ++ ") " ++ m.name ++ "()"

/-- The most bytes that a method may have before its body for both to stand on one line. -/
def maxHeadSize : Nat := 100

def Marker.isShort (m : Marker) : Bool := m.head.utf8ByteSize ≤ maxHeadSize

def Marker.line (column : Nat) (m : Marker) : String :=
  m.head.pushn ' ' (column - m.head.length) ++ " \x7b\x7d\n"

def Marker.lines (m : Marker) : String := m.head ++ " \x7b\n\x7d\n"

def bodyColumn (ms : List Marker) : Nat := (ms.map fun m => m.head.length).foldl max 0

/-- The methods up to the first long one, and the text of what follows them. -/
def markerGroups : List Marker → List Marker × String
  | [] => ([], "")
  | m :: ms =>
    let (group, rest) := markerGroups ms
    if m.isShort then (m :: group, rest)
    else ([], m.lines ++ String.join (group.map (Marker.line (bodyColumn group))) ++ rest)

/-- The text of the methods. Those on one line have their bodies in one column, as long as no longer
method comes between them. -/
def markerText (ms : List Marker) : String :=
  let (group, rest) := markerGroups ms
  String.join (group.map (Marker.line (bodyColumn group))) ++ rest

def fileText (package : String) (kinds : List Kind) : String :=
  let ms := markers kinds
  "// Code generated by adtgen. DO NOT EDIT.\n\npackage " ++ package ++ "\n" ++
    (if ms.isEmpty then "" else "\n" ++ markerText ms)

/-- The file of markers for the declarations of a text. -/
def generate (package text : String) : Except KindError String :=
  match parse? text with
  | none => .error .malformed
  | some kinds => do
    check kinds
    return fileText package kinds

end LemonScript.Variants
