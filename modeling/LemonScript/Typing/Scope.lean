import LemonScript.Library
import LemonScript.Typing.Error
/-!
# Scopes

A scope holds the names that are visible at one place. A name that is visible cannot be declared
again, so no declaration hides another one, and leaving a block is going back to the names from
before it. Composite types are kept under their printed name when they are first met.
-/

namespace LemonScript

/-- What a visible name stands for. -/
inductive Meaning
  | var (v : Variable)
  | fn (f : Function)
  | type (t : Ty)

structure Scope where
  names : List (String × Meaning)
  nextId : Int

/-- What surrounds a statement. -/
structure Surroundings where
  inLoop : Bool
  /-- The result type of the function around it. -/
  result : Option Ty

/-- A step of analysis reads and extends the scope, or finds a mistake. -/
abbrev Analysis := StateT Scope (Except AnalysisError)

namespace Scope

/-- The scope that every program starts in. -/
def initial : Scope where
  names :=
    Library.types.map (fun (name, t) => (name, .type t))
      ++ Library.functions.map (fun f => (f.name, .fn f))
      ++ Library.constants.map (fun v => (v.name, .var v))
  nextId := Library.firstUserId

def find? (s : Scope) (name : String) : Option Meaning := s.names.lookup name

end Scope

namespace Analysis

def reject {α : Type} (e : SemanticError) : Analysis α := throw (.semantic e)

def fault {α : Type} (f : Fault) : Analysis α := throw (.fault f)

def require (condition : Bool) (e : SemanticError) : Analysis Unit :=
  if condition then pure () else reject e

/-- A number that no entity has yet. -/
def freshId : Analysis Int := do
  let s ← get
  set { s with nextId := s.nextId + 1 }
  return s.nextId

def declare (name : String) (m : Meaning) : Analysis Unit := do
  let s ← get
  require (s.find? name).isNone (.alreadyDeclared name)
  set { s with names := (name, m) :: s.names }

def lookUp (name : String) : Analysis Meaning := do
  match (← get).find? name with
  | some m => return m
  | none => reject (.notDeclared name)

/-- Runs a step whose declarations are not visible behind it. -/
def inBlock {α : Type} (step : Analysis α) : Analysis α := do
  let names := (← get).names
  let a ← step
  modify fun s => { s with names }
  return a

/-- Keeps a composite type under its printed name, or gives the one that is kept there. -/
def register (t : Ty) : Analysis Ty := do
  match (← get).find? t.text with
  | none =>
    declare t.text (.type t)
    return t
  | some (.type known) => return known
  | some _ => fault (.notAType t.text)

/-- The type that a spelled type denotes. -/
def resolve : Ty → Analysis Ty
  | .named name => do
    match ← lookUp name with
    | .type t => return t
    | _ => reject .typeExpected
  | .array member => do
    register (.array (← resolve member))
  | .map key value => do
    let key ← resolve key
    let value ← resolve value
    register (.map key value)
  | t => return t

def newVariable (name : String) (isConst : Bool) (type : Ty) : Analysis Variable := do
  return ⟨← freshId, name, isConst, type⟩

/-- The entity that a name stands for. -/
def identifier (name : String) : Analysis Node := do
  match ← lookUp name with
  | .var v => return .var v
  | .fn f =>
    if f.signature.isNone then fault .absentSignature
    else return .fn f
  | .type _ => reject (.notDeclared name)

end Analysis

end LemonScript
