import LemonScript.Syntax.Fault
/-!
# What the writing of JavaScript keeps track of

Entities are named in the order in which they are first met, loops get a label when one is needed,
and a program that prints needs a helper function in front.
-/

namespace LemonScript

namespace JavaScript

inductive Frame
  | loop (label : Option Nat)
  | switch
deriving Repr, DecidableEq

structure EmitState where
  met : List Int
  /-- The number of labels used so far. -/
  labels : Nat
  prints : Bool
  /-- The loops and switches around the present place, the innermost first. -/
  frames : List Frame
deriving Repr, DecidableEq

def EmitState.initial : EmitState := ⟨[], 0, false, []⟩

/-- A step of writing. -/
abbrev Emit := StateT EmitState (Except Fault)

/-- A line of the program and how deep it is nested. -/
structure Line where
  depth : Nat
  text : String
deriving Repr, DecidableEq

def Line.render (l : Line) : String :=
  String.ofList (List.replicate (2 * l.depth) ' ') ++ l.text

/-- The name of an entity: its own name and its number among those met so far. -/
def targetName (id : Int) (name : String) : Emit String := do
  let s ← get
  let met := if s.met.contains id then s.met else s.met ++ [id]
  set { s with met }
  return s!"{name}_{met.idxOf id + 1}"

def labelText (n : Nat) : String := s!"loop_{n}"

/-- Finds the innermost loop of a stack and its label; a loop without one gets the number `fresh`. -/
def labelInnermost (fresh : Nat) : List Frame → Option (Nat × List Frame)
  | [] => none
  | .loop (some label) :: rest => some (label, .loop (some label) :: rest)
  | .loop none :: rest => some (fresh, .loop (some fresh) :: rest)
  | .switch :: rest => (labelInnermost fresh rest).map fun (label, rest) => (label, .switch :: rest)

/-- The statement that leaves the innermost loop. Inside a switch the loop has to be named. -/
def chopText : Emit String := do
  let s ← get
  match s.frames with
  | .switch :: _ =>
    match labelInnermost (s.labels + 1) s.frames with
    | some (label, frames) =>
      set { s with frames, labels := max s.labels label }
      return s!"break {labelText label};"
    | none => return "break;"
  | _ => return "break;"

end JavaScript

end LemonScript
