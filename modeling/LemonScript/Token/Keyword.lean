import LemonScript.Text.Quoted
/-!
# Keywords and kinds of tokens

Keywords are phrases, some of several words. A kind of token has a number; numbers that no kind has
are kept, so that every number can be shown.
-/

namespace LemonScript

/-- The phrases of the language. -/
inductive Keyword
  | function | ifThen | elseIf | otherwise | whileLoop | forLoop | beginBlock | endBlock
  | switch | case | default | giveBack | chop | next | pour | species
  | const | static | receive | source | classDecl | extending | plant
  | sweet | sour | key
  | intType | floatType | boolType | stringType | voidType
deriving Repr, DecidableEq, Inhabited

namespace Keyword

def spelling : Keyword → String
  | function => "When life gives you lemons try"
  | ifThen => "Squeeze the lemon if"
  | elseIf => "Keep juicing if"
  | otherwise => "Toss the lemon and do"
  | whileLoop => "Drink the lemonade while"
  | forLoop => "forEachLemon"
  | beginBlock => "BEGIN JUICING"
  | endBlock => "END JUICING"
  | switch => "Pick"
  | case => "lemonCase"
  | default => "citrusLimon"
  | giveBack => "you get lemonade and"
  | chop => "chop"
  | next => "nextLemon"
  | pour => "pour"
  | species => "species"
  | const => "lemonStain"
  | static => "trunk"
  | receive => "receive"
  | source => "from"
  | classDecl => "Limon"
  | extending => "branches"
  | plant => "plant"
  | sweet => "sweet"
  | sour => "sour"
  | key => "key"
  | intType => "slice"
  | floatType => "dontUseMeForEyeDrops"
  | boolType => "taste"
  | stringType => "pulp"
  | voidType => "noLemon"

def all : List Keyword :=
  [function, ifThen, elseIf, otherwise, whileLoop, forLoop, beginBlock, endBlock, switch, case,
   default, giveBack, chop, next, pour, species, const, static, receive, source, classDecl,
   extending, plant, sweet, sour, key, intType, floatType, boolType, stringType, voidType]

/-- The keywords that no identifier may spell. -/
def reserved : List Keyword :=
  [intType, floatType, boolType, stringType, voidType, pour, species, beginBlock, endBlock, switch,
   chop, case, default, classDecl, const, static, forLoop, next, sweet, sour, receive, function,
   ifThen, elseIf, otherwise, whileLoop, giveBack]

end Keyword

inductive TokenKind
  | endOfInput
  | illegal
  | identifier
  | number
  | string
  | keyword (k : Keyword)
  | unknown (code : Int)
deriving Repr, DecidableEq

namespace TokenKind

def all : List TokenKind :=
  [endOfInput, illegal, identifier, number, string] ++ Keyword.all.map keyword

def ofCode (code : Int) : TokenKind :=
  if code < 0 then unknown code else (all[code.toNat]?).getD (unknown code)

/-- The source text of a kind; only keywords have one. -/
def spelling : TokenKind → String
  | keyword k => k.spelling
  | _ => ""

/-- The name of a kind in messages. -/
def text : TokenKind → String
  | endOfInput => "EOF"
  | illegal => "ILLEGAL"
  | identifier => "identifier"
  | number => "number"
  | string => "string"
  | keyword k => quoted k.spelling
  | unknown code => s!"TokenKind({code})"

/-- Whether an identifier may not spell this. -/
def isReserved : TokenKind → Bool
  | keyword k => Keyword.reserved.contains k
  | _ => false

instance : Coe Keyword TokenKind := ⟨keyword⟩

end TokenKind

end LemonScript
