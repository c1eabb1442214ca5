/-!
# Paths

A path is a text of steps with slashes between them. It is followed step by step, so two dots lead
back only from a directory that is there.
-/

namespace LemonScript

/-- The parts of a text between slashes. -/
def splitSlashes : List Char → List (List Char)
  | [] => [[]]
  | c :: cs =>
    match splitSlashes cs with
    | [] => [[c]]
    | part :: parts => if c == '/' then [] :: part :: parts else (c :: part) :: parts

/-- The steps of a path, of which some may lead nowhere. -/
def pathSteps (path : String) : List String := (splitSlashes path.toList).map String.ofList

def isRooted (path : String) : Bool := path.toList.head? == some '/'

def endsInSlash (path : String) : Bool := path.toList.getLast? == some '/'

/-- The steps of a path without the empty ones at its end. -/
def stepsToLast (path : String) : List String :=
  ((pathSteps path).reverse.dropWhile (· == "")).reverse

def maxNameBytes : Nat := 255

def maxPathBytes : Nat := 4095

inductive Place
  | inside (names : List String)
  | around
  /-- Something in a directory around it, of which nothing is known. -/
  | unknown
deriving Repr, DecidableEq

namespace Place

/-- Where a step leads to. An empty step and a single dot stay, and two dots lead back. -/
def step (p : Place) (name : String) : Place :=
  if name == "" || name == "." then p
  else
    match p with
    | inside names =>
      if name == ".." then if names.isEmpty then around else inside names.dropLast
      else inside (names ++ [name])
    | around => if name == ".." then around else unknown
    | unknown => unknown

def start (path : String) : Place := if isRooted path then around else inside []

end Place

def baseName (path : String) : String :=
  let parts := (pathSteps path).filter (· != "")
  if path == "" then "." else parts.getLast?.getD "/"

def withoutExtension (extension name : String) : String :=
  if extension.toList.isSuffixOf name.toList then
    .ofList (name.toList.take (name.length - extension.length))
  else name

end LemonScript
