import LemonScript.Proofs.Typing.Scoped
/-!
# Where the entities of a program occur

The occurrences of entities in a tree are listed in the order in which a text of the tree shows them: a
declared name stands in front of what belongs to it. Entities of the library are left out, since they
are not declared.
-/

namespace LemonScript

open Library (isLibrary)

structure Mention where
  id : Int
  name : String
  declares : Bool
deriving Repr, DecidableEq

variable {m : Mention} {n : Node} {ids : List Int}

namespace Mention

def own (m : Mention) : List Mention := if isLibrary m.id then [] else [m]

theorem own_of_isLibrary (h : isLibrary m.id) : m.own = [] := if_pos h

theorem own_of_not_isLibrary (h : isLibrary m.id = false) : m.own = [m] := by
  rw [own, h]
  rfl

def ofVariable (declares : Bool) (v : Variable) : Mention := ⟨v.id, v.name, declares⟩

def ofFunction (declares : Bool) (f : Function) : Mention := ⟨f.id, f.name, declares⟩

def ofParameters (params : List Parameter) : List Mention :=
  params.flatMap fun p => p.entity.toList.flatMap fun v => (ofVariable true v).own

end Mention

open Mention (ofVariable ofFunction ofParameters)

namespace Node

mutual

/-- The occurrences of entities that the program declares. -/
def mentions : Node → List Mention
  | var v => (ofVariable false v).own
  | fn f => (ofFunction false f).own
  | binary left _ right _ => mentions left ++ mentions right
  | unary _ operand _ _ => mentions operand
  | call callee args _ => mentions callee ++ mentionsIn args
  | arrayLit elements _ => mentionsIn elements
  | mapLit entries _ => mentionsOfEntries entries
  | member array _ _ => mentions array
  | property map key _ => mentions map ++ mentions key
  | varDecl _ _ init _ _ entity => (entity.toList.flatMap fun v => (ofVariable true v).own) ++ mentions init
  | assign target source => mentions target ++ mentions source
  | funDecl _ _ _ params body entity =>
    (entity.toList.flatMap fun f => (ofFunction true f).own) ++
      (ofParameters (params.getD []) ++ mentionsIn body)
  | ifElse cases otherwise => mentionsOfArms cases ++ mentionsIn otherwise
  | whileLoop condition body => mentions condition ++ mentionsIn body
  | forLoop _ init condition step body entity =>
    (entity.toList.flatMap fun v => (ofVariable true v).own) ++
      (mentions init ++ (mentions condition ++ (mentions step ++ mentionsIn body)))
  | switch scrutinee cases default => mentions scrutinee ++ (mentionsOfArms cases ++ mentionsIn default)
  | giveBack value => mentions value
  | _ => []

def mentionsOfAll : List Node → List Mention
  | [] => []
  | n :: ns => mentions n ++ mentionsOfAll ns

def mentionsIn : Option (List Node) → List Mention
  | none => []
  | some ns => mentionsOfAll ns

def mentionsOfArms : List (Arm Node) → List Mention
  | [] => []
  | ⟨guard, body⟩ :: rest => mentions guard ++ (mentionsIn body ++ mentionsOfArms rest)

def mentionsOfEntries : List (Entry Node) → List Mention
  | [] => []
  | ⟨key, value⟩ :: rest => mentions key ++ (mentions value ++ mentionsOfEntries rest)

end

def isLibraryFunction : Node → Bool
  | fn f => f.id == Library.pour.id || f.id == Library.species.id
  | _ => false

theorem mentions_of_isLibraryFunction (h : n.isLibraryFunction) : n.mentions = [] := by
  cases n with
  | fn f =>
    apply Mention.own_of_isLibrary
    simp only [isLibraryFunction, Bool.or_eq_true, beq_iff_eq] at h
    rcases h with h | h <;> rw [ofFunction, h] <;> rfl
  | _ => cases h

end Node

def Program.mentions (p : Program) : List Mention := Node.mentionsIn p.statements

/-! ### Declarations and uses -/

def Site.entities (Γ : Site) : Set Int := Γ.vars ∪ Γ.funs

namespace Site

variable (Γ : Site) {id id' : Int}

theorem mem_entities_declare : id' ∈ (Γ.declare id).entities ↔ id' ∈ Γ.entities ∨ id' ∈ [id] := by
  simp only [entities, declare, Set.mem_union, Set.mem_insert_iff, List.mem_singleton]
  tauto

theorem mem_entities_declareFunction :
    id' ∈ (Γ.declareFunction id).entities ↔ id' ∈ Γ.entities ∨ id' ∈ [id] := by
  simp only [entities, declareFunction, Set.mem_union, Set.mem_insert_iff, List.mem_singleton]
  tauto

theorem mem_entities_declareAll :
    id' ∈ (Γ.declareAll ids).entities ↔ id' ∈ Γ.entities ∨ id' ∈ ids := by
  simp only [entities, declareAll, Set.mem_union, Set.mem_ofPred_eq]
  tauto

end Site

/-- The names of declarations are those of the declared entities, and all entities that occur were
declared before or are among them. -/
structure Accounted (A : Set Int) (ids : List Int) (ms : List Mention) : Prop where
  declaring : (ms.filter (·.declares)).map (·.id) = ids
  inScope : ∀ m ∈ ms, m.id ∈ A ∨ m.id ∈ ids

namespace Accounted

variable {A A' : Set Int} {ids ids' : List Int} {ms ms' : List Mention}

theorem nil : Accounted A [] [] := ⟨rfl, by simp⟩

theorem append (h : Accounted A ids ms) (h' : Accounted A' ids' ms') (hA : ∀ id ∈ A', id ∈ A ∨ id ∈ ids) :
    Accounted A (ids ++ ids') (ms ++ ms') where
  declaring := by rw [List.filter_append, List.map_append, h.declaring, h'.declaring]
  inScope := by
    intro m hm
    rw [List.mem_append]
    rcases List.mem_append.mp hm with hm | hm
    · exact (h.inScope m hm).imp_right .inl
    · rcases h'.inScope m hm with hid | hid
      · exact (hA _ hid).imp_right .inl
      · exact .inr (.inr hid)

theorem uses_append (h : Accounted A [] ms) (h' : Accounted A ids' ms') : Accounted A ids' (ms ++ ms') :=
  h.append h' fun _ => .inl

theorem mono (h : Accounted A ids ms) (hA : ∀ id ∈ A, id ∈ A') : Accounted A' ids ms :=
  ⟨h.declaring, fun m hm => (h.inScope m hm).imp_left (hA _)⟩

theorem use (hm : m.declares = false) (h : isLibrary m.id ∨ m.id ∈ A) : Accounted A [] m.own := by
  by_cases hlibrary : isLibrary m.id = true
  · rw [Mention.own_of_isLibrary hlibrary]
    exact nil
  · rw [Mention.own_of_not_isLibrary (by simpa using hlibrary)]
    refine ⟨by simp [hm], fun m' hm' => ?_⟩
    rw [List.mem_singleton.mp hm']
    exact .inl (h.resolve_left hlibrary)

theorem declaration (m : Mention) (hm : m.declares) (h : isLibrary m.id = false) :
    Accounted A [m.id] m.own := by
  rw [Mention.own_of_not_isLibrary h]
  refine ⟨by simp [hm], fun m' hm' => ?_⟩
  rw [List.mem_singleton.mp hm']
  exact .inr (List.mem_singleton_self _)

end Accounted

namespace Scoped

variable {Γ : Site}

mutual

theorem accounted_expression : ∀ {n : Node}, Expression Γ n → Accounted Γ.entities [] n.mentions
  | .var _, h => .use rfl (h.imp_right .inl)
  | .fn _, h => .use rfl (h.1.imp_right .inr)
  | .binary .., h => (accounted_expression h.2.1).uses_append (accounted_expression h.2.2)
  | .unary _ operand _ _, h => accounted_expression (n := operand) h.2
  | .call .., h => (accounted_expression h.1).uses_append (accounted_optional h.2)
  | .arrayLit elements _, h => accounted_optional (l := elements) h
  | .mapLit entries _, h => accounted_entries (l := entries) h
  | .member array _ _, h => accounted_expression (n := array) h.2
  | .property .., h => (accounted_expression h.1).uses_append (accounted_expression h.2)
  | .intLit _, _ | .floatLit _, _ | .stringLit _, _ | .boolLit .., _ => .nil

theorem accounted_expressions : ∀ {l : List Node}, Expressions Γ l →
    Accounted Γ.entities [] (Node.mentionsOfAll l)
  | [], _ => .nil
  | _ :: _, h => (accounted_expression h.1).uses_append (accounted_expressions h.2)

theorem accounted_optional : ∀ {l : Option (List Node)}, Optional Γ l →
    Accounted Γ.entities [] (Node.mentionsIn l)
  | none, _ => .nil
  | some ns, h => accounted_expressions (l := ns) h

theorem accounted_entries : ∀ {l : List (Entry Node)}, Entries Γ l →
    Accounted Γ.entities [] (Node.mentionsOfEntries l)
  | [], _ => .nil
  | ⟨_, _⟩ :: _, h =>
    (accounted_expression h.1).uses_append ((accounted_expression h.2.1).uses_append (accounted_entries h.2.2))

end

theorem accounted_update (h : Update Γ n) : Accounted Γ.entities [] n.mentions := by
  unfold Update at h
  split at h
  · exact (accounted_expression (Γ := Γ) (n := .var _) h.1).uses_append (accounted_expression h.2.2)
  · exact accounted_expression (Γ := Γ) (n := .var _) h.1
  · exact h.elim

theorem accounted_parameters {A : Set Int} (ps : List Parameter) (h : ∀ p ∈ ps, p.entity.isSome)
    (hown : ∀ id ∈ parameterIds (some ps), isLibrary id = false) :
    Accounted A (parameterIds (some ps)) (ofParameters ps) := by
  induction ps with
  | nil => exact .nil
  | cons p ps ih =>
    rw [List.forall_mem_cons] at h
    obtain ⟨v, hv⟩ := Option.isSome_iff_exists.mp h.1
    have hids : parameterIds (some (p :: ps)) = [v.id] ++ parameterIds (some ps) := by
      simp [parameterIds, hv]
    have hmentions : ofParameters (p :: ps) = (ofVariable true v).own ++ ofParameters ps := by
      simp [ofParameters, hv]
    rw [hids] at hown ⊢
    rw [hmentions]
    rw [List.forall_mem_append] at hown
    have hname : Accounted A [v.id] (ofVariable true v).own :=
      .declaration (ofVariable true v) rfl (hown.1 _ (List.mem_singleton_self _))
    exact hname.append (ih h.2 hown.2) fun _ => .inl

theorem mem_entities_behind (Γ : Site) (n : Node) :
    ∀ id ∈ (Γ.behind n).entities, id ∈ Γ.entities ∨ id ∈ n.declared := by
  intro id hid
  unfold Site.behind at hid
  split at hid
  · exact Γ.mem_entities_declare.mp hid
  · exact (Γ.mem_entities_declareFunction.mp hid).imp_right (List.mem_append_left _)
  · exact .inl hid

def Own (ids : List Int) : Prop := ∀ id ∈ ids, isLibrary id = false

theorem own_append {ids' : List Int} :
    Own (ids ++ ids') ↔ Own ids ∧ Own ids' := List.forall_mem_append

mutual

theorem accounted_statement {Γ : Site} {n : Node} (h : Statement Γ n) (hown : Own n.declared) :
    Accounted Γ.entities n.declared n.mentions := by
  cases n with
  | varDecl _ _ init =>
    obtain ⟨v, rfl⟩ := Option.isSome_iff_exists.mp h.2
    have hinit : Accounted Γ.entities [] init.mentions := by
      rcases h.1 with rfl | hinit
      · exact .nil
      · exact accounted_expression hinit
    have hname : Accounted Γ.entities [v.id] (ofVariable true v).own :=
      .declaration (ofVariable true v) rfl (hown v.id (List.mem_singleton_self _))
    have hall := hname.append hinit fun _ => .inl
    simpa [Node.declared, Node.mentions] using hall
  | assign => exact (accounted_expression h.1).uses_append (accounted_expression h.2)
  | funDecl _ _ _ params =>
    obtain ⟨f, rfl, hparams, hbody⟩ := h
    rw [Node.declared, own_append, own_append] at hown
    have hname : Accounted Γ.entities [f.id] (ofFunction true f).own :=
      .declaration (ofFunction true f) rfl (hown.1 f.id (List.mem_singleton_self _))
    have hps : Accounted (Γ.declareFunction f.id).entities (parameterIds params)
        (ofParameters (params.getD [])) :=
      accounted_parameters (params.getD []) hparams hown.2.1
    have hall := hname.append (hps.append (accounted_block hbody hown.2.2) fun _ =>
      ((Γ.declareFunction f.id).mem_entities_declareAll).mp) fun _ => Γ.mem_entities_declareFunction.mp
    simpa [Node.declared, Node.mentions] using hall
  | ifElse =>
    rw [Node.declared, own_append] at hown
    exact (accounted_arms h.1 hown.1).append (accounted_block h.2 hown.2) fun _ => .inl
  | whileLoop _ body =>
    exact (accounted_expression h.1).uses_append (accounted_block (Γ := Γ.loop) (l := body) h.2 hown)
  | forLoop _ init _ _ body =>
    obtain ⟨v, rfl, hinit, hcondition, hstep, hbody⟩ := h
    rw [Node.declared, own_append] at hown
    have hname : Accounted Γ.entities [v.id] (ofVariable true v).own :=
      .declaration (ofVariable true v) rfl (hown.1 v.id (List.mem_singleton_self _))
    have hinit : Accounted (Γ.declare v.id).entities [] init.mentions :=
      (accounted_expression hinit).mono fun id hid => Γ.mem_entities_declare.mpr (.inl hid)
    have hbody : Accounted (Γ.declare v.id).entities (Node.declaredIn body) (Node.mentionsIn body) :=
      accounted_block (Γ := (Γ.declare v.id).loop) hbody hown.2
    have hall := hname.append (hinit.uses_append ((accounted_expression hcondition).uses_append
      ((accounted_update hstep).uses_append hbody))) fun _ => Γ.mem_entities_declare.mp
    simpa [Node.declared, Node.mentions] using hall
  | switch =>
    rw [Node.declared, own_append] at hown
    exact (accounted_expression h.1).uses_append
      ((accounted_arms h.2.1 hown.1).append (accounted_block h.2.2 hown.2) fun _ => .inl)
  | giveBack value => exact accounted_expression (n := value) h.2
  | giveBackNothing | next | chop => exact .nil
  | _ => exact h.elim accounted_update accounted_expression

theorem accounted_statements {Γ : Site} : ∀ {l : List Node}, Statements Γ l → Own (Node.declaredInAll l) →
    Accounted Γ.entities (Node.declaredInAll l) (Node.mentionsOfAll l)
  | [], _, _ => .nil
  | n :: ns, h, hown => by
    rw [Node.declaredInAll, own_append] at hown
    exact (accounted_statement h.1 hown.1).append (accounted_statements h.2 hown.2) (mem_entities_behind Γ n)

theorem accounted_block {Γ : Site} : ∀ {l : Option (List Node)}, Block Γ l → Own (Node.declaredIn l) →
    Accounted Γ.entities (Node.declaredIn l) (Node.mentionsIn l)
  | none, _, _ => .nil
  | some ns, h, hown => accounted_statements (l := ns) h hown

theorem accounted_arms {Γ : Site} : ∀ {l : List (Arm Node)}, Arms Γ l → Own (Node.declaredInArms l) →
    Accounted Γ.entities (Node.declaredInArms l) (Node.mentionsOfArms l)
  | [], _, _ => .nil
  | ⟨_, _⟩ :: _, h, hown => by
    rw [Node.declaredInArms, own_append] at hown
    exact (accounted_expression h.1).uses_append
      ((accounted_block h.2.1 hown.1).append (accounted_arms h.2.2 hown.2) fun _ => .inl)

end

end Scoped

/-! ### Trees over a vocabulary -/

/-- The entities that a program may declare, each with its name. -/
structure Vocabulary where
  Has : Int → String → Prop
  own : ∀ {id name}, Has id name → isLibrary id = false
  isName : ∀ {id name}, Has id name → IsName name
  unique : ∀ {id name name'}, Has id name → Has id name' → name = name'

namespace Vocabulary

variable (E : Vocabulary)

def Variables (entity : Option Variable) : Prop := ∀ v ∈ entity, E.Has v.id v.name

def Parameters (params : Option (List Parameter)) : Prop := ∀ p ∈ params.getD [], Variables E p.entity

mutual

/-- The entities of the tree are in the vocabulary, up to the constant of the library and calls of its functions. Every
`if` has a condition. -/
def Tree : Node → Prop
  | .var v => v.id = Library.pi.id ∨ E.Has v.id v.name
  | .fn f => E.Has f.id f.name
  | .binary left _ right _ => Tree left ∧ Tree right
  | .unary _ operand _ _ => Tree operand
  | .call callee args _ => (callee.isLibraryFunction = true ∨ Tree callee) ∧ Optional args
  | .arrayLit elements _ => Optional elements
  | .mapLit entries _ => Entries entries
  | .member array _ _ => Tree array
  | .property map key _ => Tree map ∧ Tree key
  | .varDecl _ _ init _ _ entity => Variables E entity ∧ Tree init
  | .assign target source => Tree target ∧ Tree source
  | .funDecl _ _ _ params body entity =>
    (∀ f ∈ entity, E.Has f.id f.name) ∧ Parameters E params ∧ Optional body
  | .ifElse cases otherwise => cases ≠ [] ∧ Arms cases ∧ Optional otherwise
  | .whileLoop condition body => Tree condition ∧ Optional body
  | .forLoop _ init condition step body entity =>
    Variables E entity ∧ Tree init ∧ Tree condition ∧ Tree step ∧ Optional body
  | .switch scrutinee cases default => Tree scrutinee ∧ Arms cases ∧ Optional default
  | .giveBack value => Tree value
  | _ => True

def Trees : List Node → Prop
  | [] => True
  | n :: ns => Tree n ∧ Trees ns

def Optional : Option (List Node) → Prop
  | none => True
  | some ns => Trees ns

def Arms : List (Arm Node) → Prop
  | [] => True
  | ⟨guard, body⟩ :: rest => Tree guard ∧ Optional body ∧ Arms rest

def Entries : List (Entry Node) → Prop
  | [] => True
  | ⟨key, value⟩ :: rest => Tree key ∧ Tree value ∧ Entries rest

end

/-- All entities that occur are in the vocabulary. -/
def Spans (ms : List Mention) : Prop := ∀ m ∈ ms, E.Has m.id m.name

variable {E}

theorem trees_iff {ns : List Node} : Trees E ns ↔ ∀ n ∈ ns, Tree E n :=
  Node.forall_mem_iff trivial fun _ _ => Iff.rfl

theorem optional_iff {ns : Option (List Node)} : Optional E ns ↔ ∀ n ∈ ns.getD [], Tree E n :=
  Node.forall_mem_getD_iff trivial fun _ => trees_iff

theorem entries_iff {es : List (Entry Node)} : Entries E es ↔ ∀ n ∈ es.flatMap Entry.children, Tree E n :=
  Node.forall_mem_entries_iff trivial fun _ _ => Iff.rfl

theorem arms_iff {arms : List (Arm Node)} : Arms E arms ↔ ∀ n ∈ arms.flatMap Arm.children, Tree E n :=
  Node.forall_mem_arms_iff trivial fun a _ => by rw [Arms, optional_iff]

theorem Spans.append {ms ms' : List Mention} (h : Spans E ms) (h' : Spans E ms') : Spans E (ms ++ ms') :=
  List.forall_mem_append.mpr ⟨h, h'⟩

theorem spans_nil : Spans E [] := List.forall_mem_nil _

theorem spans_own (h : isLibrary m.id ∨ E.Has m.id m.name) : Spans E m.own := by
  unfold Mention.own
  split
  · exact spans_nil
  · next hown => exact List.forall_mem_singleton.mpr (h.resolve_left hown)

theorem spans_variables {entity : Option Variable} (h : Variables E entity) :
    Spans E (entity.toList.flatMap fun v => (ofVariable true v).own) := by
  cases entity with
  | none => exact spans_nil
  | some v =>
    rw [Option.toList_some, List.flatMap_singleton]
    exact spans_own (.inr (h v rfl))

theorem spans_parameters {ps : List Parameter} (h : ∀ p ∈ ps, Variables E p.entity) :
    Spans E (ofParameters ps) := by
  intro m hm
  obtain ⟨p, hp, hm⟩ := List.mem_flatMap.mp hm
  exact spans_variables (h p hp) m hm

mutual

theorem spans_tree {n : Node} (h : Tree E n) : Spans E n.mentions := by
  cases n with
  | var v => exact spans_own (h.imp_left fun (hid : v.id = _) => by rw [ofVariable, hid]; rfl)
  | fn => exact spans_own (.inr h)
  | binary | property | assign => exact (spans_tree h.1).append (spans_tree h.2)
  | unary _ operand _ _ | member operand _ _ | giveBack operand => exact spans_tree (n := operand) h
  | call =>
    refine Spans.append ?_ (spans_optional h.2)
    rcases h.1 with hlibrary | hcallee
    · rw [Node.mentions_of_isLibraryFunction hlibrary]
      exact spans_nil
    · exact spans_tree hcallee
  | arrayLit elements _ => exact spans_optional (l := elements) h
  | mapLit entries _ => exact spans_entries (l := entries) h
  | varDecl => exact (spans_variables h.1).append (spans_tree h.2)
  | funDecl _ _ _ _ _ entity =>
    refine Spans.append ?_ ((spans_parameters h.2.1).append (spans_optional h.2.2))
    cases entity with
    | none => exact spans_nil
    | some f =>
      rw [Option.toList_some, List.flatMap_singleton]
      exact spans_own (.inr (h.1 f rfl))
  | ifElse => exact (spans_arms h.2.1).append (spans_optional h.2.2)
  | whileLoop => exact (spans_tree h.1).append (spans_optional h.2)
  | forLoop =>
    exact (spans_variables h.1).append ((spans_tree h.2.1).append ((spans_tree h.2.2.1).append
      ((spans_tree h.2.2.2.1).append (spans_optional h.2.2.2.2))))
  | switch => exact (spans_tree h.1).append ((spans_arms h.2.1).append (spans_optional h.2.2))
  | _ => exact spans_nil

theorem spans_trees : ∀ {l : List Node}, Trees E l → Spans E (Node.mentionsOfAll l)
  | [], _ => spans_nil
  | _ :: _, h => (spans_tree h.1).append (spans_trees h.2)

theorem spans_optional : ∀ {l : Option (List Node)}, Optional E l → Spans E (Node.mentionsIn l)
  | none, _ => spans_nil
  | some ns, h => spans_trees (l := ns) h

theorem spans_arms : ∀ {l : List (Arm Node)}, Arms E l → Spans E (Node.mentionsOfArms l)
  | [], _ => spans_nil
  | ⟨_, _⟩ :: _, h => (spans_tree h.1).append ((spans_optional h.2.1).append (spans_arms h.2.2))

theorem spans_entries : ∀ {l : List (Entry Node)}, Entries E l → Spans E (Node.mentionsOfEntries l)
  | [], _ => spans_nil
  | ⟨_, _⟩ :: _, h => (spans_tree h.1).append ((spans_tree h.2.1).append (spans_entries h.2.2))

end

end Vocabulary

end LemonScript
