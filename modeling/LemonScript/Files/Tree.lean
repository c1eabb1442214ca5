import LemonScript.Files.Host
import LemonScript.Files.Path
/-!
# A file system as a value

A tree knows the places of its files and directories. Main definition: `Session.host`, a host that
works on such a tree.
-/

namespace LemonScript

/-- A place with the text of its file, or with none if it is a directory. -/
structure FileNode where
  place : List String
  text : Option String
deriving Repr, DecidableEq

/-- The files and directories below a directory. -/
structure FileTree where
  nodes : List FileNode
deriving Repr, DecidableEq

namespace FileTree

def empty : FileTree := ⟨[]⟩

def find? (t : FileTree) (place : List String) : Option FileNode :=
  if place.isEmpty then some ⟨[], none⟩ else t.nodes.find? fun n => n.place == place

def put (t : FileTree) (n : FileNode) : FileTree :=
  ⟨t.nodes.filter (fun m => m.place != n.place) ++ [n]⟩

/-- Makes the directories on the way to a place that are not there yet. -/
def withParents (t : FileTree) (place : List String) : FileTree :=
  (List.range place.length).foldl (fun t length =>
    let parent := place.take length
    if (t.find? parent).isSome then t else t.put ⟨parent, none⟩) t

def add (t : FileTree) (path text : String) : FileTree :=
  match (pathSteps path).foldl Place.step (.inside []) with
  | .inside place => (t.withParents place).put ⟨place, if endsInSlash path then none else some text⟩
  | _ => t

/-- What stands at a place that a path leads to. Around the tree there are directories, in which
nothing is found. -/
def at? (t : FileTree) : Place → Option FileNode
  | .inside place => t.find? place
  | .around => some ⟨[], none⟩
  | .unknown => none

/-- Follows steps from a place. Every step but the last has to lead to a directory. -/
def walk (t : FileTree) : Place → List String → Except FileProblem Place
  | p, [] => .ok p
  | p, step :: steps =>
    if step.utf8ByteSize > maxNameBytes then .error .longName
    else if steps.isEmpty then .ok (p.step step)
    else
      match t.at? (p.step step) with
      | none => .error .missing
      | some ⟨_, some _⟩ => .error .notDirectory
      | some ⟨_, none⟩ => t.walk (p.step step) steps

/-- The place to which the steps of a path lead, or what is wrong on the way. -/
def locate (t : FileTree) (path : String) (steps : List String) : Except FileProblem Place :=
  if path.toList.contains '\x00' then .error .badName
  else if path == "" then .error .missing
  else if path.utf8ByteSize > maxPathBytes then .error .longName
  else t.walk (Place.start path) steps

def readFile (t : FileTree) (path : String) : Except FileError String :=
  match t.locate path (pathSteps path) with
  | .error problem => .error ⟨.opening, path, problem⟩
  | .ok place =>
    match t.at? place with
    | none => .error ⟨.opening, path, .missing⟩
    | some ⟨_, some text⟩ => .ok text
    | some ⟨_, none⟩ => .error ⟨.reading, path, .isDirectory⟩

/-- Writes a file. A path with a slash at its end names no file, whatever stands there, and what is
written around the tree is not kept. -/
def writeFile (t : FileTree) (path text : String) : Except FileError FileTree :=
  match t.locate path (stepsToLast path) with
  | .error problem => .error ⟨.opening, path, problem⟩
  | .ok place =>
    if endsInSlash path then .error ⟨.opening, path, .isDirectory⟩
    else
      match place, t.at? place with
      | _, some ⟨_, none⟩ => .error ⟨.opening, path, .isDirectory⟩
      | .inside names, _ => .ok (t.put ⟨names, some text⟩)
      | _, _ => .ok t

def readDirectory (t : FileTree) (path : String) : Except FileError (List DirEntry) :=
  match t.locate path (pathSteps path) with
  | .error problem => .error ⟨.opening, path, problem⟩
  | .ok place =>
    match place, t.at? place with
    | _, none => .error ⟨.opening, path, .missing⟩
    | _, some ⟨_, some _⟩ => .error ⟨.reading, path, .notDirectory⟩
    | .inside names, some ⟨_, none⟩ =>
      .ok (t.nodes.filterMap fun n =>
        if !n.place.isEmpty && n.place.dropLast == names then
          n.place.getLast?.map fun name => ⟨name, n.text⟩
        else none)
    | _, some ⟨_, none⟩ => .ok []

/-- The files of a tree that another does not have with the same text, with their paths. -/
def changedSince (t before : FileTree) : List (String × String) :=
  t.nodes.filterMap fun n =>
    match n.text with
    | some text => if before.nodes.contains n then none else some ("/".intercalate n.place, text)
    | none => none

end FileTree

structure Session where
  files : FileTree
  printed : String
deriving Repr, DecidableEq

def Session.host : Host (StateM Session) where
  readFile path := return (← get).files.readFile path
  writeFile path text := do
    match (← get).files.writeFile path text with
    | .ok files => modify ({ · with files }); return .ok ()
    | .error e => return .error e
  readDirectory path := return (← get).files.readDirectory path
  print text := modify fun s => { s with printed := s.printed ++ text }

end LemonScript
