import LemonScript.Grammar.Program
import LemonScript.JavaScript.Program
import LemonScript.Simplify.Statement
import LemonScript.Text.Case
import LemonScript.Typing.Analysis
/-!
# The compiler

A source is read, analyzed, simplified and written as JavaScript. The program can be asked for at
any of these stages.
-/

namespace LemonScript

inductive CompileError
  | parse (error : ParseError)
  | analysis (error : AnalysisError)
  | fault (fault : Fault)
deriving Repr

def CompileError.message : CompileError → String
  | parse (.syntactic e) => e.message
  | parse (.aborted reason) => reason.message
  | analysis (.semantic e) => e.message
  | analysis (.fault f) => f.message
  | fault f => f.message

inductive Stage
  /-- The tree as it was read. -/
  | tree
  /-- The tree with entities and types. -/
  | analyzed
  | simplified
  /-- JavaScript of the analyzed tree. -/
  | plainScript
  /-- JavaScript of the simplified tree. -/
  | script
  /-- A word about lemons. -/
  | lemon
deriving Repr, DecidableEq

namespace Stage

/-- The stage with a name; case does not matter. -/
def ofName? (name : String) : Option Stage :=
  match lowered name with
  | "ast" => some tree
  | "analyze" | "analyzed" => some analyzed
  | "optimize" | "optimized" => some simplified
  | "generate" => some plainScript
  | "js" => some script
  | "lemon" => some lemon
  | _ => none

end Stage

structure CompileOptions where
  /-- The name that syntax errors carry. -/
  filename : String
  simplify : SimplifyOptions
  /-- The number drawn for a word about lemons. -/
  lot : Nat
deriving Inhabited

inductive StageResult
  | tree (p : Program)
  | text (t : String)

def lemonWords : List String :=
  ["unsqueeze the lemonade till you get lemons 🍋",
   "🍋 🍋🍋 🍋🍋🍋 🍋🍋🍋🍋 🍋🍋🍋🍋🍋 ...",
   "no lemons here :(",
   "chocoMilk coming out next ?",
   "lemonScript > python"]

/-- The answer to a request for a stage that there is none of. -/
def unknownStage : String := "Unknown output type"

namespace CompileOptions

def parse (o : CompileOptions) (source : String) : Except CompileError Program :=
  (Program.parse o.filename source).mapError .parse

def analyze (o : CompileOptions) (source : String) : Except CompileError Program := do
  (← o.parse source).analyze.mapError .analysis

def simplified (o : CompileOptions) (source : String) : Except CompileError Program := do
  ((← o.analyze source).simplify o.simplify).mapError .fault

def script (p : Program) : Except CompileError StageResult :=
  return .text (← p.javaScript.mapError .fault)

def runStage (o : CompileOptions) (source : String) : Stage → Except CompileError StageResult
  | .tree => return .tree (← o.parse source)
  | .analyzed => return .tree (← o.analyze source)
  | .simplified => return .tree (← o.simplified source)
  | .plainScript => do script (← o.analyze source)
  | .script => do script (← o.simplified source)
  | .lemon => return .text (lemonWords.getD (o.lot % lemonWords.length) "")

/-- The program at the stage with a name. An unknown name is answered with a remark. -/
def compile (o : CompileOptions) (source stage : String) : Except CompileError StageResult :=
  match Stage.ofName? stage with
  | some stage => o.runStage source stage
  | none => return .text unknownStage

/-- The JavaScript of a program before simplification and after each of a number of passes. -/
def scripts (o : CompileOptions) (p : Program) : Nat → Except Fault (List String)
  | 0 => return [← p.javaScript]
  | n + 1 => do
    let first ← p.javaScript
    let next ← p.simplify o.simplify
    let rest ← o.scripts next n
    return first :: rest

/-- The JavaScript of a source before simplification and after each of a number of passes. -/
def passes (o : CompileOptions) (source : String) (count : Nat) : Except CompileError (List String) := do
  (o.scripts (← o.analyze source) count).mapError .fault

end CompileOptions

end LemonScript
