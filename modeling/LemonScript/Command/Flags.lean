import LemonScript.Number.Integer
import LemonScript.Text.Quoted
/-!
# Flags

A flag has one or two dashes in front of its name. Its value stands behind an equals sign or is the
next argument. The flags end at the first argument that is none, or behind two dashes alone.
-/

namespace LemonScript

inductive FlagKind
  | text
  | number
  | switch
deriving Repr, DecidableEq

/-- A flag that a command knows. -/
structure Flag where
  name : String
  kind : FlagKind
deriving Repr, DecidableEq

inductive UsageError
  | badFlag (argument : String)
  | unknownFlag (name : String)
  | noValue (name : String)
  | badValue (name value : String)
  | unknownCommand (name : String)
deriving Repr, DecidableEq

def UsageError.message : UsageError → String
  | badFlag argument => "bad flag syntax: " ++ argument
  | unknownFlag name => "flag provided but not defined: -" ++ name
  | noValue name => "flag needs an argument: -" ++ name
  | badValue name value => "invalid value " ++ quoted value ++ " for flag -" ++ name ++ ": parse error"
  | unknownCommand name => "No help topic for '" ++ name ++ "'"

/-- The flags that were given, with their values, and the arguments behind them. -/
structure Given where
  values : List (String × String)
  rest : List String
deriving Repr, DecidableEq

namespace Given

/-- The value of a flag; of several the last one holds. -/
def value? (g : Given) (name : String) : Option String := g.values.reverse.lookup name

def isSet (g : Given) (name : String) : Bool := (g.value? name).isSome

def text (g : Given) (name default : String) : String := (g.value? name).getD default

def number (g : Given) (name : String) (default : Int) : Int :=
  ((g.value? name).bind int64?).getD default

/-- Whether a switch was given and is on. -/
def isOn (g : Given) (name : String) : Bool :=
  ["1", "t", "T", "true", "TRUE", "True"].contains (g.text name "false")

end Given

def FlagKind.takes : FlagKind → String → Bool
  | text, _ => true
  | number, value => (int64? value).isSome
  | switch, value =>
    ["1", "t", "T", "true", "TRUE", "True", "0", "f", "F", "false", "FALSE", "False"].contains value

/-- The name of a flag and the value behind an equals sign, if an argument is a flag. -/
def flagParts (argument : List Char) : Option (List Char × Option (List Char)) :=
  let name? : Option (List Char) :=
    match argument with
    | '-' :: '-' :: name => some name
    | '-' :: c :: name => some (c :: name)
    | _ => none
  name?.map fun name =>
    match name.dropWhile (· != '=') with
    | _ :: value => (name.takeWhile (· != '='), some value)
    | [] => (name, none)

/-- Puts a flag in front of those that follow it, if it takes the value. -/
def withFlag (flag : Flag) (value : String) (later : Except UsageError Given) : Except UsageError Given :=
  if flag.kind.takes value then later.map fun g => { g with values := (flag.name, value) :: g.values }
  else .error (.badValue flag.name value)

def readFlags (flags : List Flag) : List String → Except UsageError Given
  | [] => .ok ⟨[], []⟩
  | argument :: rest =>
    if argument == "--" then .ok ⟨[], rest⟩
    else
      match flagParts argument.toList with
      | none => .ok ⟨[], argument :: rest⟩
      | some (name, value) =>
        if name.isEmpty || name.head? == some '-' then .error (.badFlag argument)
        else
          match flags.find? fun f => f.name == .ofList name, value with
          | none, _ => .error (.unknownFlag (.ofList name))
          | some flag, some value => withFlag flag (.ofList value) (readFlags flags rest)
          | some flag, none =>
            if flag.kind == .switch then withFlag flag "true" (readFlags flags rest)
            else
              match rest with
              | value :: rest => withFlag flag value (readFlags flags rest)
              | [] => .error (.noValue flag.name)

end LemonScript
