import LemonScript.Command.Flags
import LemonScript.Command.LogLevel
import LemonScript.Dump.Node
import LemonScript.Files.Host
import LemonScript.Files.Path
import LemonScript.TypeInfo.Assembly
/-!
# The command line

The commands make a module, compile a file, build a directory and describe a program. They reach the
outside world through a `Host` only.
-/

namespace LemonScript

inductive CommandError
  | usage (e : UsageError)
  | logLevel (name : String)
  | noModuleName
  | file (e : FileError)
  | settings
  | typeInfo (e : TypeInfo.ReadError)
  | compile (e : CompileError)

namespace CommandError

def message : CommandError → String
  | usage e => e.message
  | logLevel name => "couldn't parse log level " ++ uppered name
  | noModuleName => "no module name provided"
  | file e => e.message
  | settings => "malformed " ++ ModuleSettings.filename
  | typeInfo e => e.message
  | compile e => e.message

end CommandError

/-- What a command line asks for. -/
inductive Command
  | init (name : String)
  | compile (file stage output : String) (maxUnroll : Int)
  | build (output : String) (dump : Bool)
  | typeInfo (file assembly : String)
deriving Repr, DecidableEq

/-- What the program says when it is asked for nothing. -/
def usageText : String :=
  "usage: lemon [--log-level level] init name\n" ++
  "       lemon [--log-level level] compile [--stage stage] [--output file] [--max-unroll n] file\n" ++
  "       lemon [--log-level level] build [--output file] [--dump]\n" ++
  "       lemon [--log-level level] typeinfo [--ll file] file"

namespace Command

def logLevelFlag : Flag := ⟨"log-level", .text⟩

/-- The level that holds where none is given. -/
def defaultLogLevel : String := "INFO"

/-- Reads a command; without one there is nothing to do. -/
def parse : List String → Except UsageError (Option Command)
  | [] => .ok none
  | "init" :: args => do
    let g ← readFlags [] args
    return some (.init (g.rest.headD ""))
  | "compile" :: args => do
    let g ← readFlags [⟨"stage", .text⟩, ⟨"output", .text⟩, ⟨"max-unroll", .number⟩] args
    return some (.compile (g.rest.headD "") (g.text "stage" "js") (g.text "output" "")
      (g.number "max-unroll" SimplifyOptions.defaultMaxUnroll))
  | "build" :: args => do
    let g ← readFlags [⟨"output", .text⟩, ⟨"dump", .switch⟩] args
    return some (.build (g.text "output" "") (g.isOn "dump"))
  | "typeinfo" :: args => do
    let g ← readFlags [⟨"ll", .text⟩] args
    return some (.typeInfo (g.rest.headD "") (g.text "ll" ""))
  | name :: _ => .error (.unknownCommand name)

section

variable {m : Type → Type} [Monad m] (host : Host m)

/-- Does something with a file; its failure is the command's. -/
def onFiles {α : Type} (action : m (Except FileError α)) : ExceptT CommandError m α :=
  ExceptT.mk do return (← action).mapError .file

/-- Goes on with a result that may be an error. -/
def given {ε α : Type} (cause : ε → CommandError) (result : Except ε α) : ExceptT CommandError m α :=
  ExceptT.mk (return result.mapError cause)

def printLine (text : String) : ExceptT CommandError m Unit :=
  ExceptT.lift (host.print (text ++ "\n"))

/-- Writes a line to a file, or prints it where no file is named. -/
def deliver (path text : String) : ExceptT CommandError m Unit :=
  if path == "" then printLine host text else onFiles (host.writeFile path (text ++ "\n"))

def checkLogLevel (name : String) : ExceptT CommandError m Unit :=
  if (LogLevel.ofName? name).isSome then pure () else throw (.logLevel name)

def readSettings : ExceptT CommandError m ModuleSettings := do
  match ModuleSettings.parse? (← onFiles (host.readFile ModuleSettings.filename)) with
  | some settings => return settings
  | none => throw .settings

def runInit (name : String) : ExceptT CommandError m Unit := do
  if name == "" then throw .noModuleName
  onFiles (host.writeFile ModuleSettings.filename (ModuleSettings.new name).text)

/-- Compiles a file up to a stage; `lot` is drawn for a word about lemons. -/
def runCompile (lot : Nat) (file stage output : String) (maxUnroll : Int) :
    ExceptT CommandError m Unit := do
  let source ← onFiles (host.readFile file)
  let options : CompileOptions := ⟨file, .ofRequest maxUnroll, lot⟩
  match ← given CommandError.compile (options.compile source stage) with
  | .text text => deliver host output text
  | .tree p => deliver host output p.shown

/-- Builds the present directory. The log level of the settings counts if none is given. -/
def runBuild (levelGiven : Bool) (output : String) (dump : Bool) : ExceptT CommandError m Unit := do
  let settings ← readSettings host
  if settings.logLevel != "" && !levelGiven then checkLogLevel settings.logLevel
  let entries ← onFiles (host.readDirectory ".")
  let (p, script) ← given CommandError.compile (settings.build entries)
  if dump then printLine host p.shown
  else deliver host (if output == "" then settings.output else output) script

/-- Shows the description of a program, which is read from an assembly module or made from a source,
or writes it to an assembly module. -/
def runTypeInfo (file assembly : String) : ExceptT CommandError m Unit := do
  let text ← onFiles (host.readFile file)
  if ".ll".toList.isSuffixOf file.toList then
    printLine host (← given CommandError.typeInfo (TypeInfo.ofAssembly file text)).shown
  else
    let options : CompileOptions := ⟨file, .ofRequest 0, 0⟩
    let p ← given CommandError.compile (options.analyze text)
    let package := withoutExtension SourceFile.extension (baseName file)
    if assembly == "" then printLine host (TypeInfo.collect package p).shown
    else deliver host assembly (TypeInfo.asmModule package p).text

def run (lot : Nat) (levelGiven : Bool) : Command → ExceptT CommandError m Unit
  | init name => runInit host name
  | compile file stage output maxUnroll => runCompile host lot file stage output maxUnroll
  | build output dump => runBuild host levelGiven output dump
  | typeInfo file assembly => runTypeInfo host file assembly

/-- Runs a command line. The log level is checked before the command is looked at. -/
def runArguments (lot : Nat) (args : List String) : ExceptT CommandError m Unit := do
  let g ← given CommandError.usage (readFlags [logLevelFlag] args)
  checkLogLevel (g.text logLevelFlag.name defaultLogLevel)
  match ← given CommandError.usage (parse g.rest) with
  | some command => command.run host lot (g.isSet logLevelFlag.name)
  | none => printLine host usageText

end

end Command

end LemonScript
