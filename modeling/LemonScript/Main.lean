import LemonScript.Command.Run
/-!
# The program

Runs the command line on the files of the present directory.
-/

namespace LemonScript

/-- The problem that the system reports. -/
def problemOf : IO.Error → FileProblem
  | .noFileOrDirectory .. => .missing
  | e => .other (toString e)

/-- Does something with a file and reports a failure. -/
def attempt {α : Type} (path : String) (action : IO α) : IO (Except FileError α) := do
  try return .ok (← action)
  catch e => return .error ⟨.opening, path, problemOf e⟩

def readText (path : String) : IO String := do
  return decodeUtf8 (← IO.FS.readBinFile path).toList

/-- The entries of a directory, with the texts of the sources among them. -/
def readEntries (path : String) : IO (List DirEntry) := do
  let here ← IO.currentDir
  let mut entries := []
  for e in ← (here / path).readDir do
    let text ←
      if ← e.path.isDir then pure none
      else if SourceFile.isSourceName e.fileName then some <$> readText e.path.toString
      else pure (some "")
    entries := ⟨e.fileName, text⟩ :: entries
  return entries

def systemHost : Host IO where
  readFile path := attempt path (readText path)
  writeFile path text := attempt path (IO.FS.writeFile path text)
  readDirectory path := attempt path (readEntries path)
  print text := IO.print text

end LemonScript

def main (args : List String) : IO UInt32 := do
  let lot ← IO.rand 0 1000000
  match ← (LemonScript.Command.runArguments LemonScript.systemHost lot args).run with
  | .ok () => return 0
  | .error e =>
    IO.eprintln e.message
    return 1
