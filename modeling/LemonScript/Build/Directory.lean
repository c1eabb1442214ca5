import LemonScript.Compiler
import LemonScript.Settings.Module
/-!
# Building a directory

The sources of a directory are its files with the extension of sources. They are read in the order of
their names and compiled as one program.
-/

namespace LemonScript

structure DirEntry where
  name : String
  /-- The text of a file; a directory has none. -/
  text : Option String
deriving Repr, DecidableEq, Inhabited

structure SourceFile where
  name : String
  text : String
deriving Repr, DecidableEq, Inhabited

namespace SourceFile

def extension : String := ".lemon"

def isSourceName (name : String) : Bool := extension.toList.isSuffixOf name.toList

def ofEntry? (e : DirEntry) : Option SourceFile :=
  if isSourceName e.name then e.text.map fun text => ⟨e.name, text⟩ else none

/-- The sources among the entries of a directory, in the order of their names. -/
def ofEntries (entries : List DirEntry) : List SourceFile :=
  (entries.filterMap ofEntry?).mergeSort fun a b => a.name ≤ b.name

def parse (s : SourceFile) : Except ParseError Program := Program.parse s.name s.text

end SourceFile

namespace Program

/-- The program that has the imports and the statements of several, in order. -/
def concat (programs : List Program) : Program where
  imports := programs.flatMap Program.imports
  statements :=
    match programs.flatMap fun p => p.statements.getD [] with
    | [] => none
    | statements => some statements

/-- The program of several sources. The first source that cannot be read decides the error. -/
def ofSources (sources : List SourceFile) : Except ParseError Program :=
  return concat (← sources.mapM SourceFile.parse)

end Program

namespace ModuleSettings

def simplified (m : ModuleSettings) (p : Program) : Except Fault Program :=
  if m.optimize then p.simplify (.ofRequest m.maxUnroll) else .ok p

def buildSources (m : ModuleSettings) (sources : List SourceFile) :
    Except CompileError (Program × String) := do
  let parsed ← (Program.ofSources sources).mapError .parse
  let analyzed ← parsed.analyze.mapError .analysis
  let p ← (m.simplified analyzed).mapError .fault
  let script ← p.javaScript.mapError .fault
  return (p, script)

/-- The program of a directory and its JavaScript. -/
def build (m : ModuleSettings) (entries : List DirEntry) : Except CompileError (Program × String) :=
  m.buildSources (SourceFile.ofEntries entries)

end ModuleSettings

end LemonScript
