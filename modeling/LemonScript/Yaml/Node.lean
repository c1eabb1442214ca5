import LemonScript.Yaml.Token
/-!
# The contents of a settings file

A file holds a scalar, a list or a mapping. What is left out is the plain scalar without characters.
Main definition: `Node.parse?`, which reads the first document of a text.
-/

namespace LemonScript.Yaml

inductive Node
  | scalar (text : String) (plain : Bool)
  | list (items : List Node)
  | mapping (entries : List (Node × Node))
deriving Repr, Inhabited

namespace Node

/-- What stands where nothing is written. -/
def absent : Node := .scalar "" true

abbrev Parsed (α : Type) := Option (α × List Token)

/-- Reads a part unless a token comes next that ends it. -/
def orAbsent (stops : List Token) (read : List Token → Parsed Node) (ts : List Token) : Parsed Node :=
  match ts with
  | [] => none
  | t :: _ => if stops.contains t then some (absent, ts) else read ts

/-- Where a part stands: on lines, on lines right behind a key, where a list needs no indentation,
or between brackets. -/
inductive Context
  | lines
  | entry
  | flow
deriving Repr, DecidableEq

/-- Passes the comma before a member of a collection in brackets that is not the first. -/
def flowMember? (first : Bool) : List Token → Option (List Token)
  | .comma :: ts => if first then some (.comma :: ts) else some ts
  | ts => if first then some ts else none

mutual

def node? (c : Context) : Nat → List Token → Parsed Node
  | 0, _ => none
  | fuel + 1, ts =>
    match ts with
    | .scalar text plain :: ts => some (.scalar text plain, ts)
    | .bracketOpen :: ts => (flowItems? true fuel ts).map fun (items, ts) => (.list items, ts)
    | .braceOpen :: ts => (flowEntries? true fuel ts).map fun (es, ts) => (.mapping es, ts)
    | .listStart :: ts =>
      if c == .flow then none
      else (items? fuel ts).map fun (items, ts) => (.list items, ts)
    | .mappingStart :: ts =>
      if c == .flow then none
      else (entries? fuel ts).map fun (es, ts) => (.mapping es, ts)
    | .dash :: ts =>
      if c == .entry then
        (looseItems? fuel (.dash :: ts)).map fun (items, ts) => (.list items, ts)
      else none
    | _ => none

def items? : Nat → List Token → Parsed (List Node)
  | 0, _ => none
  | fuel + 1, ts =>
    match ts with
    | .layoutEnd :: ts => some ([], ts)
    | .dash :: ts =>
      match orAbsent [.dash, .layoutEnd] (node? .lines fuel) ts with
      | none => none
      | some (item, ts) => (items? fuel ts).map fun (items, ts) => (item :: items, ts)
    | _ => none

/-- Reads the items of a list that is not indented; what ends it belongs to the mapping around it. -/
def looseItems? : Nat → List Token → Parsed (List Node)
  | 0, _ => none
  | fuel + 1, ts =>
    match ts with
    | .dash :: ts =>
      match orAbsent [.dash, .key, .value, .layoutEnd] (node? .lines fuel) ts with
      | none => none
      | some (item, ts) => (looseItems? fuel ts).map fun (items, ts) => (item :: items, ts)
    | [] => none
    | ts => some ([], ts)

/-- Reads the entries of a mapping on lines. -/
def entries? : Nat → List Token → Parsed (List (Node × Node))
  | 0, _ => none
  | fuel + 1, ts =>
    match ts with
    | .layoutEnd :: ts => some ([], ts)
    | .key :: ts =>
      match orAbsent [.key, .value, .layoutEnd] (node? .entry fuel) ts with
      | none => none
      | some (key, ts) =>
        match value? [.key, .value, .layoutEnd] .entry fuel ts with
        | none => none
        | some (value, ts) => (entries? fuel ts).map fun (es, ts) => ((key, value) :: es, ts)
    | _ => none

/-- Reads the value of an entry, if there is one. -/
def value? (stops : List Token) (c : Context) : Nat → List Token → Parsed Node
  | 0, _ => none
  | fuel + 1, ts =>
    match ts with
    | .value :: ts => orAbsent stops (node? c fuel) ts
    | [] => none
    | ts => some (absent, ts)

/-- Reads the items of a list in brackets. An item may be a single entry. -/
def flowItems? (first : Bool) : Nat → List Token → Parsed (List Node)
  | 0, _ => none
  | fuel + 1, ts =>
    match ts with
    | .bracketClose :: ts => some ([], ts)
    | .comma :: .bracketClose :: ts => if first then none else some ([], ts)
    | _ =>
      match flowMember? first ts with
      | none => none
      | some (.key :: ts) =>
        match orAbsent [.value, .comma, .bracketClose] (node? .flow fuel) ts with
        | none => none
        | some (key, ts) =>
          match value? [.comma, .bracketClose] .flow fuel ts with
          | none => none
          | some (value, ts) =>
            (flowItems? false fuel ts).map fun (items, ts) => (.mapping [(key, value)] :: items, ts)
      | some ts =>
        match node? .flow fuel ts with
        | none => none
        | some (item, ts) => (flowItems? false fuel ts).map fun (items, ts) => (item :: items, ts)

/-- Reads the entries of a mapping in braces. A key may stand alone. -/
def flowEntries? (first : Bool) : Nat → List Token → Parsed (List (Node × Node))
  | 0, _ => none
  | fuel + 1, ts =>
    match ts with
    | .braceClose :: ts => some ([], ts)
    | .comma :: .braceClose :: ts => if first then none else some ([], ts)
    | _ =>
      match flowMember? first ts with
      | none => none
      | some (.key :: ts) =>
        match orAbsent [.value, .comma, .braceClose] (node? .flow fuel) ts with
        | none => none
        | some (key, ts) =>
          match value? [.comma, .braceClose] .flow fuel ts with
          | none => none
          | some (value, ts) =>
            (flowEntries? false fuel ts).map fun (es, ts) => ((key, value) :: es, ts)
      | some ts =>
        match node? .flow fuel ts with
        | none => none
        | some (key, ts) =>
          (flowEntries? false fuel ts).map fun (es, ts) => ((key, absent) :: es, ts)

end

/-- Reads the first document. What follows it has to begin with a token, whichever that is. -/
def document? (ts : List Token) : Option Node :=
  let fuel := 4 * ts.length + 4
  let parsed : Parsed Node :=
    match ts with
    | .textEnd :: ts => some (absent, .textEnd :: ts)
    | .documentStart :: ts => orAbsent [.documentStart, .documentEnd, .textEnd] (node? .lines fuel) ts
    | ts => node? .lines fuel ts
  match parsed with
  | some (n, _ :: _) => some n
  | _ => none

/-- Reads the first document of a text. A byte order mark may stand in front of it. -/
def parse? (text : String) : Option Node :=
  let cs := text.toList
  let cs := if cs.head?.any isByteOrderMark then cs.tail else cs
  if cs.all isReadable then document? (tokensOf cs) else none

end Node

end LemonScript.Yaml
