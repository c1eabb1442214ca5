import LemonScript.Grammar.Type
import LemonScript.Number.FloatText
/-!
# Expressions in the source

From the loosest to the tightest: `&&` and `||` on one level, comparisons, sums, products, powers,
and the prefixes `-` and `!`. All binary operators group to the left but `^`, which groups to the
right. Behind a name may stand any number of `[0]` and `.key(e)`.
-/

namespace LemonScript

open Rule

namespace Grammar

def parenthesized (g : Rules) : Rule Node := do
  operator "("
  let e ← g.expression
  operator ")"
  return e

/-- `pour(e)` and `species(e)` are calls of the library function with that name. -/
def builtin (g : Rules) (k : Keyword) : Rule Node := do
  keyword k
  let e ← parenthesized g
  return .call (.ident k.spelling) (some [e]) .nothing

/-- `[0]` behind a value. -/
def indexAccess (v : Node) : Rule Node := do
  operator "["
  let index ← ofScan Scanner.digits
  operator "]"
  return .member v (some (decimalValue index.text.toList)) .nothing

/-- `.key(e)` behind a value. -/
def keyAccess (g : Rules) (v : Node) : Rule Node := do
  operator "."
  keyword .key
  let key ← parenthesized g
  return .property v key .nothing

def accessors (g : Rules) : Rule Node := do
  let name ← identifier
  extend (fun v => rewinding (indexAccess v) <|> rewinding (keyAccess g v)) g.limit (.ident name)

/-- A name with its accessors. Several alternatives begin with one, so what was found at an offset is
remembered. -/
def reference (g : Rules) : Rule Node := fun s =>
  let start := s.cursor
  match s.remembered? start.offset with
  | some ⟨some node, stop⟩ => .matched node (s.reset stop)
  | some ⟨none, stop⟩ => .failed (s.reset stop)
  | none =>
    match accessors g s with
    | .matched node s => .matched node (s.remember start.offset ⟨some node, s.cursor⟩)
    | .failed s => .failed ((s.reset start).remember start.offset ⟨none, start⟩)
    | .aborted reason => .aborted reason

/-- Expressions with commas between them. -/
def arguments (g : Rules) : Rule (List Node) := separated g.expression g.limit

def argumentList (g : Rules) : Rule (List Node) := do
  operator "("
  let args ← arguments g
  operator ")"
  return args

/-- A name with its accessors, or a call of what it stands for. -/
def callOrReference (g : Rules) : Rule Node := do
  let v ← reference g
  match ← attempt (rewinding (argumentList g)) with
  | some args => return .call v (some args) .nothing
  | none => return v

def arrayLiteral (g : Rules) : Rule Node := do
  operator "["
  let elements ← arguments g
  operator "]"
  return .arrayLit (some elements) .nothing

def keyValue (g : Rules) : Rule (Entry Node) := rewinding do
  let key ← g.expression
  operator ":"
  let value ← g.expression
  return ⟨key, value⟩

def mapLiteral (g : Rules) : Rule Node := do
  operator "\x7b"
  let entries ← separated (keyValue g) g.limit
  operator "\x7d"
  return .mapLit entries .nothing

/-- An integer or a decimal fraction. -/
def number : Rule Node := do
  let (token, n) ← ofScan Scanner.number
  match n.fraction with
  | none => return .intLit (decimalValue n.whole)
  | some fraction =>
    match floatOfDigits? n.whole fraction with
    | some x => return .floatLit x
    | none => abort (.outOfRange token.text)

def stringLiteral : Rule Node := do
  return .stringLit (← ofScan Scanner.string).text

def boolean : Rule Node :=
  (do keyword .sweet; return .ofBool true) <|> (do keyword .sour; return .ofBool false)

def primary (g : Rules) : Rule Node :=
  choice
    [builtin g .species, callOrReference g, parenthesized g, arrayLiteral g, mapLiteral g, number,
     stringLiteral, boolean]

/-- A prefix with its operand; if the operand is missing, the scanner goes back to the start. -/
def signed (g : Rules) (start : Cursor) (op : UnaryOp) : Rule Node := do
  operator op.spelling
  onFailure start do
    let operand ← g.unary
    return .unary op operand true .nothing

def unary (g : Rules) : Rule Node := do
  let start ← mark
  signed g start .neg <|> signed g start .not <|> primary g

def power (g : Rules) : Rule Node := do
  let base ← unary g
  match ← attempt (rewinding (do operator BinaryOp.pow.spelling; g.power)) with
  | some exponent => return .binary base .pow exponent .nothing
  | none => return base

/-- Operands with operators of one level between them, grouped to the left. An operator that no
operand follows is left alone. -/
def leftChain (g : Rules) (ops : List BinaryOp) (operand : Rule Node) : Rule Node := do
  let first ← operand
  extend (fun left => do
    let start ← mark
    let op ← anyOperator ops
    onFailure start do
      let right ← operand
      return .binary left op right .nothing) g.limit first

def multiplicative (g : Rules) : Rule Node := leftChain g [.mul, .div, .mod] (power g)

def additive (g : Rules) : Rule Node := leftChain g [.add, .sub] (multiplicative g)

def relational (g : Rules) : Rule Node :=
  leftChain g [.lessEq, .less, .equal, .notEqual, .greaterEq, .greater] (additive g)

def expression (g : Rules) : Rule Node := leftChain g [.and, .or] (relational g)

end Grammar

end LemonScript
