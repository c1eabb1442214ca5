import Mathlib
import LemonScript.Library
import LemonScript.Syntax.Node
/-!
# What a program works on

Variables, arrays, maps and functions live in memory. A variable holds a value; an array or a map is
shared by all values that refer to it; a function is kept with the places of all that was declared
when it was. What is printed does not show where things are, only what they look like.
-/

namespace LemonScript

namespace Semantics

abbrev Address := Nat

abbrev Env := List (Int × Address)

inductive Value
  | unset
  | int (n : Int)
  | float (x : Float)
  | string (text : String)
  | bool (b : Bool)
  | ref (a : Address)
  | library (id : Int)
deriving Inhabited

structure Code where
  id : Int
  params : List Int
  body : Option (List Node)

inductive Cell
  | var (v : Value)
  | array (elements : List Value)
  | map (entries : List (Value × Value))
  | closure (code : Code) (env : Env)

inductive Picture
  | unset
  | int (n : Int)
  | float (x : Float)
  | string (text : String)
  | bool (b : Bool)
  | array (elements : List Picture)
  | map (entries : List (Picture × Picture))
  | function (id : Int)

structure State where
  memory : List Cell
  /-- What was printed so far. -/
  output : List Picture

inductive Stop
  /-- An operation has no value for its operands. -/
  | fault
  /-- No analyzed program comes here. -/
  | stuck
  /-- The run was given up. -/
  | unfinished
deriving DecidableEq

abbrev Run := StateT State (Except Stop)

variable {α : Type}

def stop (reason : Stop) : Run α := fun _ => .error reason

def orFault : Option α → Run α
  | some a => pure a
  | none => stop .fault

/-! ### Operators -/

/-- Whether two values are equal; arrays, maps and functions are equal to themselves only. -/
def same : Value → Value → Bool
  | .unset, .unset => true
  | .int a, .int b => a == b
  | .float a, .float b => a == b
  | .string a, .string b => a == b
  | .bool a, .bool b => a == b
  | .ref a, .ref b => a == b
  | .library a, .library b => a == b
  | _, _ => false

def isUnset : Value → Bool
  | .unset => true
  | _ => false

/-- Operators on integers. Division and remainder truncate toward zero. -/
def onInts (op : BinaryOp) (l r : Int) : Option Value :=
  match op with
  | .add => some (.int (l + r))
  | .sub => some (.int (l - r))
  | .mul => some (.int (l * r))
  | .div => if r = 0 then none else some (.int (l.tdiv r))
  | .mod => if r = 0 then none else some (.int (l.tmod r))
  | .pow => if r < 0 then none else some (.int (l ^ r.toNat))
  | .less => some (.bool (decide (l < r)))
  | .lessEq => some (.bool (decide (l ≤ r)))
  | .greater => some (.bool (decide (l > r)))
  | .greaterEq => some (.bool (decide (l ≥ r)))
  | _ => none

def onFloats (op : BinaryOp) (l r : Float) : Option Value :=
  match op with
  | .add => some (.float (l + r))
  | .sub => some (.float (l - r))
  | .mul => some (.float (l * r))
  | .div => some (.float (l / r))
  | .pow => some (.float (Float.pow l r))
  | .less => some (.bool (decide (l < r)))
  | .lessEq => some (.bool (decide (l ≤ r)))
  | .greater => some (.bool (decide (l > r)))
  | .greaterEq => some (.bool (decide (l ≥ r)))
  | _ => none

def onStrings (op : BinaryOp) (l r : String) : Option Value :=
  match op with
  | .add => some (.string (l ++ r))
  | .less => some (.bool (decide (l < r)))
  | .lessEq => some (.bool (decide (l ≤ r)))
  | .greater => some (.bool (decide (l > r)))
  | .greaterEq => some (.bool (decide (l ≥ r)))
  | _ => none

/-- Operators that evaluate both of their operands. Only initialised values are compared. -/
def operate (op : BinaryOp) (x y : Value) : Option Value :=
  match op with
  | .equal => if isUnset x || isUnset y then none else some (.bool (same x y))
  | .notEqual => if isUnset x || isUnset y then none else some (.bool (!same x y))
  | _ =>
    match x, y with
    | .int l, .int r => onInts op l r
    | .float l, .float r => onFloats op l r
    | .string l, .string r => onStrings op l r
    | _, _ => none

def operateUnary (op : UnaryOp) (x : Value) : Option Value :=
  match op, x with
  | .neg, .int n => some (.int (-n))
  | .neg, .float x => some (.float (-x))
  | .not, .bool b => some (.bool (!b))
  | _, _ => none

def stepped (op : UnaryOp) (x : Value) : Option Value :=
  match op, x with
  | .increment, .int n => some (.int (n + 1))
  | .increment, .float x => some (.float (x + 1))
  | .decrement, .int n => some (.int (n - 1))
  | .decrement, .float x => some (.float (x - 1))
  | _, _ => none

def truth : Value → Run Bool
  | .bool b => pure b
  | _ => stop .fault

/-! ### Memory -/

def cellAt (a : Address) : Run Cell := fun s =>
  match s.memory[a]? with
  | some c => .ok (c, s)
  | none => .error .stuck

def store (a : Address) (c : Cell) : Run Unit := fun s =>
  .ok ((), { s with memory := s.memory.set a c })

def allocate (c : Cell) : Run Address := fun s =>
  .ok (s.memory.length, { s with memory := s.memory ++ [c] })

/-- Declares a function, which can be used in its own body. -/
def allocateFunction (code : Code) (env : Env) : Run Env := fun s =>
  let env := (code.id, s.memory.length) :: env
  .ok (env, { s with memory := s.memory ++ [.closure code env] })

def addressOf (env : Env) (id : Int) : Run Address :=
  if Library.isLibrary id then stop .stuck
  else
    match env.lookup id with
    | some a => pure a
    | none => stop .stuck

def readVar (a : Address) : Run Value := do
  match ← cellAt a with
  | .var v => return v
  | _ => stop .stuck

def writeVar (a : Address) (v : Value) : Run Unit := do
  match ← cellAt a with
  | .var _ => store a (.var v)
  | _ => stop .stuck

def bindAll : List Int → List Value → Env → Run Env
  | [], [], env => return env
  | id :: ids, v :: vs, env => do
    let a ← allocate (.var v)
    bindAll ids vs ((id, a) :: env)
  | _, _, _ => stop .stuck

/-! ### Arrays and maps -/

/-- An element of an array; there is nothing behind the last one. -/
def elementOf (x : Value) (i : Int) : Run Value :=
  match x with
  | .ref a => do
    match ← cellAt a with
    | .array xs => if i < 0 then stop .fault else return xs.getD i.toNat .unset
    | _ => stop .fault
  | _ => stop .fault

/-- The elements with a new one at an index; an index behind the end makes room. -/
def setAt (xs : List Value) (i : Nat) (v : Value) : List Value :=
  if i < xs.length then xs.set i v else xs ++ List.replicate (i - xs.length) .unset ++ [v]

def setElement (x : Value) (i : Int) (v : Value) : Run Unit :=
  match x with
  | .ref a => do
    match ← cellAt a with
    | .array xs => if i < 0 then stop .fault else store a (.array (setAt xs i.toNat v))
    | _ => stop .fault
  | _ => stop .fault

def valueAt (key : Value) : List (Value × Value) → Value
  | [] => .unset
  | (k, v) :: rest => if same k key then v else valueAt key rest

def insertAt (key v : Value) : List (Value × Value) → List (Value × Value)
  | [] => [(key, v)]
  | (k, old) :: rest => if same k key then (k, v) :: rest else (k, old) :: insertAt key v rest

/-- A map of entries, the later of which replace the earlier ones. -/
def mapOf (entries : List (Value × Value)) : List (Value × Value) :=
  entries.foldl (fun es e => insertAt e.1 e.2 es) []

def entryOf (x key : Value) : Run Value :=
  match x with
  | .ref a => do
    match ← cellAt a with
    | .map es => return valueAt key es
    | _ => stop .fault
  | _ => stop .fault

def setEntry (x key v : Value) : Run Unit :=
  match x with
  | .ref a => do
    match ← cellAt a with
    | .map es => store a (.map (insertAt key v es))
    | _ => stop .fault
  | _ => stop .fault

/-! ### The library -/

def pairOf (f : Value → Option Picture) (e : Value × Value) : Option (Picture × Picture) := do
  let k ← f e.1
  let v ← f e.2
  return (k, v)

/-- What a value looks like, if it is not nested too deeply. -/
def picture (memory : List Cell) : Nat → Value → Option Picture
  | _, .unset => some .unset
  | _, .int n => some (.int n)
  | _, .float x => some (.float x)
  | _, .string text => some (.string text)
  | _, .bool b => some (.bool b)
  | _, .library id => some (.function id)
  | 0, .ref _ => none
  | depth + 1, .ref a =>
    match memory[a]? with
    | some (.array xs) => (xs.mapM (picture memory depth)).map .array
    | some (.map es) => (es.mapM (pairOf (picture memory depth))).map .map
    | some (.closure code _) => some (.function code.id)
    | _ => none

def kindOf (memory : List Cell) : Value → String
  | .unset => "undefined"
  | .int _ => "bigint"
  | .float _ => "number"
  | .string _ => "string"
  | .bool _ => "boolean"
  | .library _ => "function"
  | .ref a =>
    match memory[a]? with
    | some (.closure ..) => "function"
    | _ => "object"

/-- The functions of the library. A value that is nested too deeply cannot be printed. -/
def libraryCall (depth : Nat) (id : Int) (args : List Value) : Run Value := fun s =>
  match args with
  | [v] =>
    if id == Library.pour.id then
      match picture s.memory depth v with
      | some p => .ok (.unset, { s with output := s.output ++ [p] })
      | none => .error .unfinished
    else if id == Library.species.id then .ok (.string (kindOf s.memory v), s)
    else .error .stuck
  | _ => .error .stuck

end Semantics

end LemonScript
