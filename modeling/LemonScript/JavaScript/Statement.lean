import LemonScript.JavaScript.Expression
/-!
# Statements in JavaScript

Each statement becomes one or more lines. A `switch` of JavaScript catches `break`, so a loop that is
left from within a switch carries a label, which is put in front of the loop's first line once its
body is written.
-/

namespace LemonScript

namespace JavaScript

/-- Runs a step inside a loop or a switch, and gives back its frame as the step left it. -/
def inFrame {α : Type} (frame : Frame) (step : Emit α) : Emit (α × Frame) := do
  modify fun s => { s with frames := frame :: s.frames }
  let a ← step
  let s ← get
  set { s with frames := s.frames.tail }
  return (a, s.frames.head?.getD frame)

/-- Runs a step around which there is no loop and no switch. -/
def inFunction {α : Type} (step : Emit α) : Emit α := do
  let outer := (← get).frames
  modify fun s => { s with frames := [] }
  let a ← step
  modify fun s => { s with frames := outer }
  return a

def loopHeader (depth : Nat) (header : String) : Frame → Line
  | .loop (some label) => ⟨depth, s!"{labelText label}: {header}"⟩
  | _ => ⟨depth, header⟩

def loopLines (depth : Nat) (header : String) (body : Emit (List Line)) : Emit (List Line) := do
  let (lines, frame) ← inFrame (.loop none) body
  return loopHeader depth (header ++ " \x7b") frame :: (lines ++ [⟨depth, "\x7d"⟩])

def declaredVariable : Option Variable → Emit String
  | some v => expression (.var v)
  | none => throw .absentEntity

def declaredFunction : Option Function → Emit String
  | some f => expression (.fn f)
  | none => throw .absentEntity

def parameterNames : List Parameter → Emit (List String)
  | [] => return []
  | p :: ps => do
    let name ← declaredVariable p.entity
    let names ← parameterNames ps
    return name :: names

mutual

def statement (depth : Nat) : Node → Emit (List Line)
  | .varDecl _ _ init _ _ entity => do
    let name ← declaredVariable entity
    if init.isMissing then return [⟨depth, s!"let {name};"⟩]
    else
      let init ← expression init
      return [⟨depth, s!"let {name} = {init};"⟩]
  | .assign target source => do
    let target ← expression target
    let source ← expression source
    return [⟨depth, s!"{target} = {source};"⟩]
  | .funDecl _ _ _ params body entity => do
    let name ← declaredFunction entity
    let params ← parameterNames (params.getD [])
    let lines ← inFunction (block (depth + 1) body)
    return ⟨depth, s!"function {name}({commaList params}) \x7b"⟩ :: (lines ++ [⟨depth, "\x7d"⟩])
  | .ifElse cases otherwise => do
    let cases ← ifCases depth "if" cases
    let otherwise ← elseBlock depth otherwise
    return cases ++ otherwise ++ [⟨depth, "\x7d"⟩]
  | .whileLoop condition body => do
    let condition ← expression condition
    loopLines depth s!"while ({condition})" (block (depth + 1) body)
  | .forLoop _ init condition step body entity => do
    let name ← declaredVariable entity
    let init ← expression init
    let condition ← expression condition
    let step ← expression step
    loopLines depth s!"for (let {name} = {init}; {condition}; {step})" (block (depth + 1) body)
  | .switch scrutinee cases default => do
    let scrutinee ← expression scrutinee
    let (lines, _) ← inFrame .switch do
      let cases ← switchCases (depth + 1) cases
      let default ← defaultClause (depth + 1) default
      return cases ++ default
    return ⟨depth, s!"switch({scrutinee}) \x7b"⟩ :: (lines ++ [⟨depth, "\x7d"⟩])
  | .giveBack value => do
    let value ← expression value
    return [⟨depth, s!"return {value};"⟩]
  | .giveBackNothing => return [⟨depth, "return;"⟩]
  | .chop => do return [⟨depth, ← chopText⟩]
  | .next => return [⟨depth, "continue;"⟩]
  | n => do
    let e ← expression n
    return [⟨depth, e ++ ";"⟩]

def statements (depth : Nat) : List Node → Emit (List Line)
  | [] => return []
  | n :: ns => do
    let n ← statement depth n
    let ns ← statements depth ns
    return n ++ ns

def block (depth : Nat) : Option (List Node) → Emit (List Line)
  | none => return []
  | some ns => statements depth ns

def ifCases (depth : Nat) (keyword : String) : List (Arm Node) → Emit (List Line)
  | [] => return []
  | ⟨guard, body⟩ :: rest => do
    let guard ← expression guard
    let lines ← block (depth + 1) body
    let rest ← ifCases depth "\x7d else if" rest
    return ⟨depth, s!"{keyword} ({guard}) \x7b"⟩ :: (lines ++ rest)

/-- Writes the block that runs when no condition holds; an empty one is left out. -/
def elseBlock (depth : Nat) : Option (List Node) → Emit (List Line)
  | none => return []
  | some [] => return []
  | some (n :: ns) => do
    let n ← statement (depth + 1) n
    let ns ← statements (depth + 1) ns
    return ⟨depth, "\x7d else \x7b"⟩ :: (n ++ ns)

/-- Writes the cases of a switch; each of them leaves the switch at its end. -/
def switchCases (depth : Nat) : List (Arm Node) → Emit (List Line)
  | [] => return []
  | ⟨guard, body⟩ :: rest => do
    let guard ← expression guard
    let lines ← block (depth + 1) body
    let rest ← switchCases depth rest
    return ⟨depth, s!"case {guard}:"⟩ :: (lines ++ ⟨depth + 1, "break;"⟩ :: rest)

def defaultClause (depth : Nat) : Option (List Node) → Emit (List Line)
  | none => return []
  | some ns => do
    let lines ← statements (depth + 1) ns
    return ⟨depth, "default:"⟩ :: lines

end

end JavaScript

end LemonScript
