import LemonScript.Build.Directory
/-!
# The host of a command

What a command needs of the outside world, over any monad in which it can be reached, and what can go
wrong with a file.
-/

namespace LemonScript

inductive FileProblem
  | missing
  | notDirectory
  | isDirectory
  | longName
  | badName
  | other (reason : String)
deriving Repr, DecidableEq

def FileProblem.text : FileProblem → String
  | missing => "no such file or directory"
  | notDirectory => "not a directory"
  | isDirectory => "is a directory"
  | longName => "file name too long"
  | badName => "invalid argument"
  | other reason => reason

/-- What was tried with a file when a problem was found. -/
inductive FileAction
  | opening
  | reading
deriving Repr, DecidableEq

def FileAction.text : FileAction → String
  | opening => "open"
  | reading => "read"

structure FileError where
  action : FileAction
  path : String
  problem : FileProblem
deriving Repr, DecidableEq

def FileError.message (e : FileError) : String :=
  e.action.text ++ " " ++ e.path ++ ": " ++ e.problem.text

/-- The parts of the outside world that commands use. -/
structure Host (m : Type → Type) where
  readFile : (path : String) → m (Except FileError String)
  writeFile : (path text : String) → m (Except FileError Unit)
  /-- The entries of a directory; of files that are no sources the text is not needed. -/
  readDirectory : (path : String) → m (Except FileError (List DirEntry))
  print : (text : String) → m Unit

end LemonScript
