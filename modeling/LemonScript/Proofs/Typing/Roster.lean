import LemonScript.Proofs.Typing.Vocabulary
/-!
# The entities of a program

A program uses the entities of the library and those that it declares, each as it was declared. No two of
them have the same number, so that the number of a use tells its name and its type.
-/

namespace LemonScript

open List (forall_mem_append forall_mem_cons forall_mem_nil forall_mem_singleton map_append map_map)

/-- Entities that are told apart by their numbers, those of the library among them. -/
structure Roster where
  Has : Entity → Prop
  unique : ∀ {e e' : Entity}, Has e → Has e' → e.id = e'.id → e = e'
  library : ∀ e ∈ Library.entities, Has e

def parameterVariables (params : Option (List Parameter)) : List Entity :=
  ((params.getD []).filterMap (·.entity)).map .var

variable {m : Node}

namespace Node

mutual

def declarations : Node → List Entity
  | varDecl _ _ _ _ _ entity => entity.toList.map .var
  | funDecl _ _ _ params body entity =>
    entity.toList.map .fn ++ (parameterVariables params ++ declarationsIn body)
  | ifElse cases otherwise => declarationsInArms cases ++ declarationsIn otherwise
  | whileLoop _ body => declarationsIn body
  | forLoop _ _ _ _ body entity => entity.toList.map .var ++ declarationsIn body
  | switch _ cases default => declarationsInArms cases ++ declarationsIn default
  | _ => []

def declarationsInAll : List Node → List Entity
  | [] => []
  | n :: ns => n.declarations ++ declarationsInAll ns

def declarationsIn : Option (List Node) → List Entity
  | none => []
  | some ns => declarationsInAll ns

def declarationsInArms : List (Arm Node) → List Entity
  | [] => []
  | ⟨_, body⟩ :: rest => declarationsIn body ++ declarationsInArms rest

end

theorem map_id_parameterVariables (params : Option (List Parameter)) :
    (parameterVariables params).map Entity.id = parameterIds params := by
  rw [parameterVariables, parameterIds, map_map, List.map_filterMap]
  rfl

mutual

theorem map_id_declarations (n : Node) : n.declarations.map Entity.id = n.declared := by
  cases n with
  | varDecl _ _ _ _ _ entity => cases entity <;> rfl
  | funDecl _ _ _ _ body =>
    simp only [declarations, declared, map_append, map_id_parameterVariables, map_id_declarationsIn body,
      map_map]
    rfl
  | ifElse cases otherwise =>
    simp only [declarations, declared, map_append, map_id_declarationsInArms, map_id_declarationsIn otherwise]
  | whileLoop _ body => exact map_id_declarationsIn body
  | forLoop _ _ _ _ body =>
    simp only [declarations, declared, map_append, map_id_declarationsIn body, map_map]
    rfl
  | switch _ cases default =>
    simp only [declarations, declared, map_append, map_id_declarationsInArms, map_id_declarationsIn default]
  | _ => rfl

theorem map_id_declarationsInAll : ∀ ns : List Node, (declarationsInAll ns).map Entity.id = declaredInAll ns
  | [] => rfl
  | n :: ns => by
    rw [declarationsInAll, declaredInAll, map_append, map_id_declarations, map_id_declarationsInAll]

theorem map_id_declarationsIn : ∀ ns : Option (List Node), (declarationsIn ns).map Entity.id = declaredIn ns
  | none => rfl
  | some ns => map_id_declarationsInAll ns

theorem map_id_declarationsInArms : ∀ arms : List (Arm Node),
    (declarationsInArms arms).map Entity.id = declaredInArms arms
  | [] => rfl
  | ⟨_, body⟩ :: rest => by
    rw [declarationsInArms, declaredInArms, map_append, map_id_declarationsIn, map_id_declarationsInArms]

end

/-- The entities of a node are in the roster: the one that it is a use of, and the variable of a loop,
which is an integer. -/
def Known (R : Roster) : Node → Prop
  | .var v => R.Has (.var v)
  | .fn f => R.Has (.fn f)
  | .forLoop _ _ _ _ _ entity => ∀ v ∈ entity, R.Has (.var v) ∧ v.type = .int
  | _ => True

end Node

def Program.roster (p : Program) (h : p.WellFormed) : Roster where
  Has e := e ∈ Library.entities ++ Node.declarationsIn p.statements
  unique := by
    intro e e' he he' hid
    have hlibrary : ∀ id ∈ Library.entities.map Entity.id, Library.isLibrary id = true := by decide
    have hnodup : ((Library.entities ++ Node.declarationsIn p.statements).map Entity.id).Nodup := by
      rw [map_append, Node.map_id_declarationsIn]
      refine List.Nodup.append (by decide) h.nodup fun id hid hown => ?_
      exact absurd (hlibrary id hid) (by rw [h.own id hown]; decide)
    exact List.inj_on_of_nodup_map hnodup he he' hid
  library _ he := List.mem_append_left _ he

namespace Lexical

variable {R : Roster} {Γ : List Entity}

/-- A part of a program: what is visible where it stands is in the roster, and so is what it declares. -/
def Stands (R : Roster) (c : Node) : Prop :=
  c = .missing ∨ ∃ Γ : List Entity, (∀ e ∈ Γ, R.Has e) ∧ Statement Γ c ∧ ∀ e ∈ c.declarations, R.Has e

variable {n : Node} {ns : List Node}

theorem Stands.of_expression (hΓ : ∀ e ∈ Γ, R.Has e) (h : Expression Γ n) : Stands R n := by
  refine .inr ⟨Γ, hΓ, ?_⟩
  cases n <;> first | exact ⟨h, forall_mem_nil _⟩ | exact h.elim

theorem expressions_iff : Expressions Γ ns ↔ ∀ n ∈ ns, Expression Γ n :=
  Node.forall_mem_iff trivial fun _ _ => Iff.rfl

theorem optional_iff {ns : Option (List Node)} : Optional Γ ns ↔ ∀ n ∈ ns.getD [], Expression Γ n :=
  Node.forall_mem_getD_iff trivial fun _ => expressions_iff

theorem entries_iff {es : List (Entry Node)} :
    Entries Γ es ↔ ∀ n ∈ es.flatMap Entry.children, Expression Γ n :=
  Node.forall_mem_entries_iff trivial fun _ _ => Iff.rfl

theorem Expression.children (h : Expression Γ n) : ∀ c ∈ n.children, Expression Γ c := by
  cases n with
  | binary => exact forall_mem_two h.1 h.2
  | unary => exact forall_mem_singleton.mpr h
  | call => exact forall_mem_cons.mpr ⟨h.1, optional_iff.mp h.2⟩
  | arrayLit => exact optional_iff.mp h
  | mapLit => exact entries_iff.mp h
  | member => exact forall_mem_singleton.mpr h
  | property => exact forall_mem_two h.1 h.2
  | intLit | floatLit | stringLit | boolLit | var | fn => exact forall_mem_nil _
  | _ => exact h.elim

theorem forall_mem_behind (hΓ : ∀ e ∈ Γ, R.Has e) (hn : ∀ e ∈ n.declarations, R.Has e) :
    ∀ e ∈ behind Γ n, R.Has e := by
  unfold behind
  split
  · exact forall_mem_cons.mpr ⟨hn _ (.head _), hΓ⟩
  · exact forall_mem_cons.mpr ⟨hn _ (.head _), hΓ⟩
  · exact hΓ

theorem stands_statements (hΓ : ∀ e ∈ Γ, R.Has e) (h : Statements Γ ns)
    (hns : ∀ e ∈ Node.declarationsInAll ns, R.Has e) : ∀ c ∈ ns, Stands R c := by
  induction ns generalizing Γ with
  | nil => exact forall_mem_nil _
  | cons n ns ih =>
    obtain ⟨hn, hrest⟩ := forall_mem_append.mp hns
    exact forall_mem_cons.mpr ⟨.inr ⟨Γ, hΓ, h.1, hn⟩, ih (forall_mem_behind hΓ hn) h.2 hrest⟩

theorem stands_block {ns : Option (List Node)} (hΓ : ∀ e ∈ Γ, R.Has e) (h : Block Γ ns)
    (hns : ∀ e ∈ Node.declarationsIn ns, R.Has e) : ∀ c ∈ ns.getD [], Stands R c := by
  cases ns with
  | none => exact forall_mem_nil _
  | some ns => exact stands_statements hΓ h hns

theorem stands_arms {arms : List (Arm Node)} (hΓ : ∀ e ∈ Γ, R.Has e) (h : Arms Γ arms)
    (harms : ∀ e ∈ Node.declarationsInArms arms, R.Has e) : ∀ c ∈ arms.flatMap Arm.children, Stands R c := by
  induction arms with
  | nil => exact forall_mem_nil _
  | cons _ _ ih =>
    obtain ⟨hguard, hbody, hrest⟩ := h
    obtain ⟨harm, harms⟩ := forall_mem_append.mp harms
    rw [List.flatMap_cons, forall_mem_append]
    exact ⟨forall_mem_cons.mpr ⟨.of_expression hΓ hguard, stands_block hΓ hbody harm⟩, ih hrest harms⟩

theorem Stands.children (h : Stands R n) : ∀ c ∈ n.children, Stands R c := by
  rcases h with rfl | ⟨Γ, hΓ, hn, hdeclared⟩
  · exact forall_mem_nil _
  cases n with
  | varDecl =>
    exact forall_mem_singleton.mpr (hn.2.1.elim .inl (.of_expression hΓ))
  | assign =>
    exact forall_mem_two (.of_expression hΓ hn.1) (.of_expression hΓ hn.2)
  | funDecl _ _ _ _ body =>
    obtain ⟨-, f, ps, rfl, rfl, -, -, -, hbody⟩ := hn
    have hdeclared : ∀ e ∈ .fn f :: (parameterVariables (some ps) ++ Node.declarationsIn body), R.Has e := hdeclared
    rw [forall_mem_cons, forall_mem_append] at hdeclared
    obtain ⟨hf, hparams, hinner⟩ := hdeclared
    refine stands_block (forall_mem_append.mpr ⟨fun e he => ?_, forall_mem_cons.mpr ⟨hf, hΓ⟩⟩) hbody hinner
    exact hparams e (List.mem_reverse.mp he)
  | ifElse =>
    obtain ⟨hcases, hotherwise⟩ := forall_mem_append.mp hdeclared
    exact forall_mem_append.mpr ⟨stands_arms hΓ hn.1 hcases, stands_block hΓ hn.2 hotherwise⟩
  | whileLoop =>
    exact forall_mem_cons.mpr ⟨.of_expression hΓ hn.1, stands_block hΓ hn.2 hdeclared⟩
  | forLoop =>
    obtain ⟨-, hinit, v, rfl, -, -, -, hcondition, hstep, hbody⟩ := hn
    obtain ⟨hv, hinner⟩ := forall_mem_cons.mp hdeclared
    have hΓ' : ∀ e ∈ Entity.var v :: Γ, R.Has e := forall_mem_cons.mpr ⟨hv, hΓ⟩
    simp only [Node.children, forall_mem_cons]
    exact ⟨.of_expression hΓ hinit, .of_expression hΓ' hcondition, .of_expression hΓ' hstep,
      stands_block hΓ' hbody hinner⟩
  | switch =>
    obtain ⟨hcases, hdefault⟩ := forall_mem_append.mp hdeclared
    exact forall_mem_cons.mpr ⟨.of_expression hΓ hn.1,
      forall_mem_append.mpr ⟨stands_arms hΓ hn.2.1 hcases, stands_block hΓ hn.2.2 hdefault⟩⟩
  | giveBack => exact forall_mem_singleton.mpr (.of_expression hΓ hn)
  | giveBackNothing | chop | next => exact forall_mem_nil _
  | _ => exact fun c hc => .of_expression hΓ (Expression.children hn c hc)

theorem Stands.partOf (hm : m.PartOf n) (h : Stands R n) : Stands R m := by
  induction hm with
  | refl => exact h
  | child hc _ ih => exact ih (h.children _ hc)

theorem Stands.known (h : Stands R n) : n.Known R := by
  rcases h with rfl | ⟨Γ, hΓ, hn, hdeclared⟩
  · trivial
  cases n with
  | var | fn => exact hΓ _ (Vocabulary.mem_of_denotes hn)
  | forLoop =>
    obtain ⟨-, -, v, rfl, -, -, htype, -⟩ := hn
    intro v' hv'
    cases Option.mem_def.mp hv'
    exact ⟨hdeclared _ (.head _), htype⟩
  | _ => trivial

end Lexical

theorem Program.known_of_lexical {p : Program} (h : p.WellFormed)
    (hlexical : Lexical.Block Library.entities p.statements) (hm : m.PartOf p.node) :
    m.Known (p.roster h) := by
  cases hm with
  | refl => trivial
  | child hc hm =>
    have hstands := Lexical.stands_block (p.roster h).library hlexical
      (fun e he => List.mem_append_right _ he) _ hc
    exact (hstands.partOf hm).known

end LemonScript
