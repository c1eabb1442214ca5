import LemonScript.JavaScript.Statement
/-!
# Programs in JavaScript

A program that prints starts with a function that writes values the way `pour` does.
-/

namespace LemonScript

namespace JavaScript

/-- Writes integers without their `n`, also inside arrays and maps. -/
def showHelper : List String :=
  ["function __show(v, nested) \x7b",
   "  if (typeof v === \"bigint\") return v.toString();",
   "  if (typeof v === \"string\") return nested ? JSON.stringify(v) : v;",
   "  if (Array.isArray(v)) return \"[\" + v.map((x) => __show(x, true)).join(\", \") + \"]\";",
   "  if (v !== null && typeof v === \"object\") return \"\x7b\" + Object.entries(v).map(([k, x]) => k + \": \" + __show(x, true)).join(\", \") + \"\x7d\";",
   "  return String(v);",
   "\x7d"]

end JavaScript

/-- The lines of an analyzed program, and what was kept track of. -/
def Program.javaScriptLines (p : Program) : Except Fault (List JavaScript.Line × JavaScript.EmitState) :=
  (JavaScript.block 0 p.statements).run .initial

/-- The JavaScript text of an analyzed program. -/
def Program.javaScript (p : Program) : Except Fault String := do
  let (lines, s) ← p.javaScriptLines
  let body := "\n".intercalate (lines.map (·.render))
  return if s.prints then "\n".intercalate JavaScript.showHelper ++ "\n" ++ body else body

end LemonScript
