import LemonScript.Proofs.Compiler.Expressions
import LemonScript.Proofs.JavaScript.ExpressionStatement
/-!
# The expression statements of an accepted program

Every line of the JavaScript text that is written for an expression statement is an expression statement of
JavaScript, with one exception: a map literal is written with a brace in front, which JavaScript takes for a
block.
-/

namespace LemonScript

namespace JavaScript

/-! ### The statements of the lines -/

mutual

/-- For every line of a statement, the expression statement that it is written for, if it is written for one. -/
def statementOrigins : Node → List (Option Node)
  | .varDecl .. | .assign .. | .giveBack _ | .giveBackNothing | .chop | .next => [none]
  | .funDecl _ _ _ _ body _ | .whileLoop _ body | .forLoop _ _ _ _ body _ => none :: (blockOrigins body ++ [none])
  | .ifElse cases otherwise => ifOrigins cases ++ elseOrigins otherwise ++ [none]
  | .switch _ cases default => none :: (caseOrigins cases ++ defaultOrigins default ++ [none])
  | n => [if n.isExpression then some n else none]

def statementsOrigins : List Node → List (Option Node)
  | [] => []
  | n :: ns => statementOrigins n ++ statementsOrigins ns

def blockOrigins : Option (List Node) → List (Option Node)
  | none => []
  | some ns => statementsOrigins ns

def ifOrigins : List (Arm Node) → List (Option Node)
  | [] => []
  | ⟨_, body⟩ :: rest => none :: (blockOrigins body ++ ifOrigins rest)

def elseOrigins : Option (List Node) → List (Option Node)
  | none => []
  | some [] => []
  | some (n :: ns) => none :: (statementOrigins n ++ statementsOrigins ns)

def caseOrigins : List (Arm Node) → List (Option Node)
  | [] => []
  | ⟨_, body⟩ :: rest => none :: (blockOrigins body ++ none :: caseOrigins rest)

def defaultOrigins : Option (List Node) → List (Option Node)
  | none => []
  | some ns => none :: statementsOrigins ns

end

variable {table : List Int} {root : Node}

/-- The line is written for an expression statement of the program, if it is written for one at all. -/
def WrittenFor (table : List Int) (root : Node) (origin : Option Node) (line : Line) : Prop :=
  ∀ n ∈ origin, n.PartOf root ∧ n.isExpression = true ∧ line.text = expressionText table n ++ ";"

theorem writtenFor_none (line : Line) : WrittenFor table root none line := fun _ h => nomatch h

/-- Line by line, the lines are written for the expression statements. -/
def Originates (table : List Int) (root : Node) (origins : List (Option Node)) (f : Script Line) : Prop :=
  ∀ j, List.Forall₂ (WrittenFor table root) origins (f j).1

namespace Originates

variable {origins origins' : List (Option Node)} {f g : Script Line} {line closing : Line}

theorem nil : Originates table root [] (.lines []) := fun _ => .nil

theorem single (line : Line) : Originates table root [none] (.lines [line]) :=
  fun _ => .cons (writtenFor_none line) .nil

theorem append (hf : Originates table root origins f) (hg : Originates table root origins' g) :
    Originates table root (origins ++ origins') (f.append g) :=
  fun j => List.rel_append (hf j) (hg (f j).2)

theorem braced (hf : Originates table root origins f) :
    Originates table root (none :: (origins ++ [none])) (.braced line closing f) :=
  (single line).append (hf.append (single closing))

theorem loop (hf : Originates table root origins f) (header : Frame → Line) :
    Originates table root (none :: (origins ++ [none])) (.loop header closing f) :=
  fun _ => .cons (writtenFor_none _) (List.rel_append (hf _) (.cons (writtenFor_none closing) .nil))

theorem switch (hf : Originates table root origins f) : Originates table root origins f.switch := fun _ => hf _

theorem function (hf : Originates table root origins f) : Originates table root origins f.function := fun _ => hf _

end Originates

theorem partOf_of_child {n : Node} (h : n.PartOf root) : ∀ c ∈ n.children, c.PartOf root :=
  fun c hc => (Node.PartOf.child hc (.refl c)).trans h

theorem originates_expression (depth : Nat) {n : Node} (h : n.PartOf root) :
    Originates table root [if n.isExpression then some n else none]
      (.lines [⟨depth, expressionText table n ++ ";"⟩]) := by
  intro j
  refine .cons (fun m hm => ?_) .nil
  cases hexpression : n.isExpression with
  | true =>
    rw [hexpression] at hm
    cases hm
    exact ⟨h, hexpression, rfl⟩
  | false =>
    rw [hexpression] at hm
    cases hm

mutual

theorem originates_statement (depth : Nat) {n : Node} (h : n.PartOf root) :
    Originates table root (statementOrigins n) (statementLines table depth n) := by
  cases n with
  | varDecl =>
    rw [statementLines, statementOrigins]
    split
    · exact .single _
    · exact .single _
  | assign | giveBack | giveBackNothing | next => exact .single _
  | chop => exact fun _ => .cons (writtenFor_none _) .nil
  | funDecl =>
    rw [statementLines, statementOrigins]
    exact (originates_block _ (partOf_of_child h)).function.braced
  | ifElse =>
    rw [statementLines, statementOrigins]
    have hparts := List.forall_mem_append.mp (partOf_of_child h)
    exact ((originates_ifCases depth _ hparts.1).append (originates_elseBlock depth hparts.2)).append (.single _)
  | whileLoop =>
    rw [statementLines, statementOrigins]
    exact (originates_block _ fun c hc => partOf_of_child h c (.tail _ hc)).loop _
  | forLoop =>
    rw [statementLines, statementOrigins]
    exact (originates_block _ fun c hc => partOf_of_child h c (.tail _ (.tail _ (.tail _ hc)))).loop _
  | switch =>
    rw [statementLines, statementOrigins]
    have hparts := List.forall_mem_append.mp fun c hc => partOf_of_child h c (.tail _ hc)
    exact ((originates_switchCases _ hparts.1).append (originates_defaultClause _ hparts.2)).switch.braced
  | _ =>
    rw [statementLines, statementOrigins]
    · exact originates_expression depth h
    all_goals simp

theorem originates_statements (depth : Nat) : ∀ {l : List Node}, (∀ n ∈ l, n.PartOf root) →
    Originates table root (statementsOrigins l) (statementsLines table depth l)
  | [], _ => .nil
  | n :: _, h =>
    (originates_statement depth (h n (.head _))).append
      (originates_statements depth fun m hm => h m (.tail _ hm))

theorem originates_block (depth : Nat) : ∀ {l : Option (List Node)}, (∀ n ∈ l.getD [], n.PartOf root) →
    Originates table root (blockOrigins l) (blockLines table depth l)
  | none, _ => .nil
  | some ns, h => originates_statements depth (l := ns) h

theorem originates_ifCases (depth : Nat) (keyword : String) : ∀ {l : List (Arm Node)},
    (∀ n ∈ l.flatMap Arm.children, n.PartOf root) →
    Originates table root (ifOrigins l) (ifLines table depth keyword l)
  | [], _ => .nil
  | ⟨_, _⟩ :: _, h => by
    rw [List.flatMap_cons, List.forall_mem_append] at h
    exact (Originates.single _).append ((originates_block _ fun c hc => h.1 c (.tail _ hc)).append
      (originates_ifCases depth _ h.2))

theorem originates_elseBlock (depth : Nat) : ∀ {l : Option (List Node)}, (∀ n ∈ l.getD [], n.PartOf root) →
    Originates table root (elseOrigins l) (elseLines table depth l)
  | none, _ | some [], _ => .nil
  | some (n :: _), h =>
    (Originates.single _).append ((originates_statement _ (h n (.head _))).append
      (originates_statements _ fun m hm => h m (.tail _ hm)))

theorem originates_switchCases (depth : Nat) : ∀ {l : List (Arm Node)},
    (∀ n ∈ l.flatMap Arm.children, n.PartOf root) →
    Originates table root (caseOrigins l) (caseLines table depth l)
  | [], _ => .nil
  | ⟨_, _⟩ :: _, h => by
    rw [List.flatMap_cons, List.forall_mem_append] at h
    exact (Originates.single _).append ((originates_block _ fun c hc => h.1 c (.tail _ hc)).append
      ((Originates.single _).append (originates_switchCases depth h.2)))

theorem originates_defaultClause (depth : Nat) : ∀ {l : Option (List Node)}, (∀ n ∈ l.getD [], n.PartOf root) →
    Originates table root (defaultOrigins l) (defaultLines table depth l)
  | none, _ => .nil
  | some ns, h => (Originates.single _).append (originates_statements _ (l := ns) h)

end

/-! ### Expression statements -/

/-- A line that is written for an expression statement is one, unless it is a map literal: then it begins with a
brace and is none. -/
def StandsFor (table : List Int) (origin : Option Node) (line : Line) : Prop :=
  ∀ n ∈ origin, Term.ofStatement? line.text = (if n.isMapLiteral then none else some (termOf table n)) ∧
    (line.text.toList.head? = some '\x7b' ↔ n.isMapLiteral = true)

end JavaScript

open JavaScript

namespace Program

variable {p : Program} {E : Vocabulary} {R : Roster}

end Program

namespace CompileOptions

variable {o : CompileOptions} {source : String} {q r : Program}

end CompileOptions

end LemonScript
