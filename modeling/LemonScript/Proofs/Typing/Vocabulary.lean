import LemonScript.Proofs.Syntax.Mention
import LemonScript.Proofs.Typing.Erasure
import LemonScript.Proofs.Typing.Lexical
/-!
# The vocabulary of an analyzed program

An analyzed program uses the entities that it declares, and the library where it is allowed to: its
functions are only called, since their names are no identifiers. The declared names are words.
-/

namespace LemonScript

open Library (entities functions)
open Mention (ofParameters ofVariable)
open Node (declared declaredIn erase mentions mentionsIn)

namespace Vocabulary

variable {E : Vocabulary} {Γ : List Entity}

def Sees (E : Vocabulary) (Γ : List Entity) : Prop := ∀ e ∈ Γ, e ∈ entities ∨ E.Has e.id e.name

variable {ids ids' : List Int} {ms ms' : List Mention}
variable {e : Entity} {f : Function} {ps : List Parameter} {n : Node}

theorem Sees.cons (h : Sees E Γ) (he : E.Has e.id e.name) : Sees E (e :: Γ) := by
  intro e' he'
  rcases List.mem_cons.mp he' with rfl | he'
  · exact .inr he
  · exact h e' he'

theorem mem_of_denotes (h : Lexical.Denotes Γ e) : e ∈ Γ := by
  have hfilter : e ∈ Γ.filter (·.name == e.name) := by
    rw [h]
    exact List.mem_singleton_self e
  exact List.mem_of_mem_filter hfilter

theorem tree_var (hΓ : Sees E Γ) {v : Variable} (h : Lexical.Denotes Γ (.var v)) : Tree E (.var v) := by
  rcases hΓ _ (mem_of_denotes h) with hlibrary | hhas
  · left
    simp only [entities, functions, Library.constants, List.map_cons, List.map_nil,
      List.cons_append, List.nil_append, List.mem_cons, List.not_mem_nil, or_false, reduceCtorEq,
      false_or, Entity.var.injEq] at hlibrary
    rw [hlibrary]
  · exact .inr hhas

theorem function_cases (hΓ : Sees E Γ) (h : Lexical.Denotes Γ (.fn f)) :
    f ∈ functions ∨ E.Has f.id f.name := by
  refine (hΓ _ (mem_of_denotes h)).imp_left fun hlibrary => ?_
  simpa [entities] using hlibrary

theorem tree_fn (hΓ : Sees E Γ) (h : Lexical.Denotes Γ (.fn f)) (hname : IsName f.name) :
    Tree E (.fn f) := by
  rcases function_cases hΓ h with hlibrary | hhas
  · have hreserved : ∀ f ∈ functions, ∃ k ∈ Keyword.reserved, f.name = k.spelling := by decide
    obtain ⟨k, hk, heq⟩ := hreserved f hlibrary
    exact absurd heq (hname.notReserved k hk)
  · exact hhas

/-- A callee may also be spelled like a function of the library. -/
theorem tree_callee (hΓ : Sees E Γ) {callee : Node} (h : Lexical.Expression Γ callee)
    (hs : Surface.Expression callee.erase ∨ ∃ name, callee.erase = .ident name)
    (htree : Surface.Expression callee.erase → Tree E callee) :
    callee.isLibraryFunction ∨ Tree E callee := by
  rcases hs with hs | ⟨name, hs⟩
  · exact .inr (htree hs)
  cases callee with
  | var v => exact .inr (tree_var hΓ h)
  | fn f =>
    rcases function_cases hΓ h with hlibrary | hhas
    · have hcalled : ∀ f ∈ functions, (Node.fn f).isLibraryFunction = true := by decide
      exact .inl (hcalled f hlibrary)
    · exact .inr hhas
  | ident => exact h.elim
  | _ => cases hs

mutual

theorem tree_expression (hΓ : Sees E Γ) : ∀ {n : Node}, Lexical.Expression Γ n →
    Surface.Expression n.erase → Tree E n
  | .var _, h, _ => tree_var hΓ h
  | .fn _, h, hs => tree_fn hΓ h hs
  | .binary .., h, hs => ⟨tree_expression hΓ h.1 hs.2.1, tree_expression hΓ h.2 hs.2.2.1⟩
  | .unary _ operand _ _, h, hs => tree_expression hΓ (n := operand) h hs.2.1
  | .call .., h, hs =>
    ⟨tree_callee hΓ h.1 (hs.1.imp (·.expression) fun heq => ⟨_, heq⟩) (tree_expression hΓ h.1),
      tree_arguments hΓ h.2 hs.2.1⟩
  | .arrayLit elements _, h, hs => tree_arguments hΓ (l := elements) h hs.1
  | .mapLit entries _, h, hs => tree_entries hΓ (l := entries) h hs.1
  | .member array _ _, h, hs => tree_expression hΓ (n := array) h hs.1.expression
  | .property .., h, hs => ⟨tree_expression hΓ h.1 hs.1.expression, tree_expression hΓ h.2 hs.2.1⟩
  | .intLit _, _, _ | .floatLit _, _, _ | .stringLit _, _, _ | .boolLit .., _, _ => trivial

theorem trees_expressions (hΓ : Sees E Γ) : ∀ {l : List Node}, Lexical.Expressions Γ l →
    Surface.Expressions (Node.eraseAll l) → Trees E l
  | [], _, _ => trivial
  | _ :: _, h, hs => ⟨tree_expression hΓ h.1 hs.1, trees_expressions hΓ h.2 hs.2⟩

theorem tree_arguments (hΓ : Sees E Γ) : ∀ {l : Option (List Node)}, Lexical.Optional Γ l →
    Surface.Arguments (Node.eraseIn l) → Optional E l
  | none, _, _ => trivial
  | some ns, h, hs => trees_expressions hΓ (l := ns) h hs

theorem tree_entries (hΓ : Sees E Γ) : ∀ {l : List (Entry Node)}, Lexical.Entries Γ l →
    Surface.Entries (Node.eraseEntries l) → Entries E l
  | [], _, _ => trivial
  | ⟨_, _⟩ :: _, h, hs =>
    ⟨tree_expression hΓ h.1 hs.1, tree_expression hΓ h.2.1 hs.2.1, tree_entries hΓ h.2.2 hs.2.2⟩

end

/-- The declarations of a part of a program are in the vocabulary if their names are identifiers. -/
structure Covers (E : Vocabulary) (ids : List Int) (ms : List Mention) : Prop where
  own : Scoped.Own ids
  has : ∀ m ∈ ms, m.declares = true → IsName m.name → E.Has m.id m.name

theorem Covers.part (h : Covers E ids ms) (hids : ids' ⊆ ids) (hms : ms' ⊆ ms) :
    Covers E ids' ms' :=
  ⟨fun id hid => h.own id (hids hid), fun m hm => h.has m (hms hm)⟩

theorem Covers.left (h : Covers E (ids ++ ids') (ms ++ ms')) : Covers E ids ms :=
  h.part (List.subset_append_left _ _) (List.subset_append_left _ _)

theorem Covers.right (h : Covers E (ids ++ ids') (ms ++ ms')) : Covers E ids' ms' :=
  h.part (List.subset_append_right _ _) (List.subset_append_right _ _)

theorem Covers.behind (h : Covers E ids (ms ++ ms')) : Covers E ids ms' :=
  h.part (List.Subset.refl _) (List.subset_append_right _ _)

theorem Covers.declared {m : Mention} (hm : m.declares)
    (h : Covers E ([m.id] ++ ids) (m.own ++ ms)) (hname : IsName m.name) : E.Has m.id m.name := by
  apply h.left.has m _ hm hname
  rw [Mention.own_of_not_isLibrary (h.own m.id (List.mem_append_left _ (List.mem_singleton_self _)))]
  exact List.mem_singleton_self m

theorem parameters_covered (h : Lexical.Parameters Γ ps) (hnames : ∀ p ∈ ps, IsName p.name)
    (hcovers : Covers E (parameterIds (some ps)) (ofParameters ps)) :
    ∀ p ∈ ps, Variables E p.entity := by
  induction ps generalizing Γ with
  | nil => simp
  | cons p ps ih =>
    obtain ⟨-, v, hentity, hname, -, -, hrest⟩ := h
    rw [List.forall_mem_cons] at hnames
    have hids : parameterIds (some (p :: ps)) = [v.id] ++ parameterIds (some ps) := by
      simp [parameterIds, hentity]
    have hms : ofParameters (p :: ps) = (ofVariable true v).own ++ ofParameters ps := by
      simp [ofParameters, hentity]
    rw [hids, hms] at hcovers
    rw [List.forall_mem_cons]
    refine ⟨fun v' hv' => ?_, ih hrest hnames.2 hcovers.right⟩
    rw [hentity, Option.mem_some_iff] at hv'
    subst hv'
    have hv : IsName v.name := hname ▸ hnames.1
    exact hcovers.declared (m := ofVariable true v) rfl hv

theorem sees_parameterEntities (hΓ : Sees E Γ) (h : ∀ p ∈ ps, Variables E p.entity) :
    Sees E (Lexical.parameterEntities ps ++ Γ) := by
  intro e he
  rcases List.mem_append.mp he with he | he
  · simp only [Lexical.parameterEntities, List.mem_reverse, List.mem_map, List.mem_filterMap] at he
    obtain ⟨v, ⟨p, hp, hentity⟩, rfl⟩ := he
    exact .inr (h p hp v hentity)
  · exact hΓ e he

theorem sees_behind (hΓ : Sees E Γ) (hn : Tree E n) : Sees E (Lexical.behind Γ n) := by
  unfold Lexical.behind
  split
  · exact hΓ.cons (e := .var _) (hn.1 _ rfl)
  · exact hΓ.cons (e := .fn _) (hn.1 _ rfl)
  · exact hΓ

theorem tree_init (hΓ : Sees E Γ) {init : Node} (h : init = .missing ∨ Lexical.Expression Γ init)
    (hs : init.erase = .missing ∨ Surface.Expression init.erase) : Tree E init := by
  rcases h with rfl | h
  · trivial
  rcases hs with hs | hs
  · cases init <;> trivial
  · exact tree_expression hΓ h hs

theorem tree_update (hΓ : Sees E Γ) (h : Lexical.Expression Γ n) (hs : Surface.Update n.erase) :
    Tree E n := by
  cases n with
  | binary left =>
    cases hleft : left.erase with
    | ident =>
      simp only [erase, hleft, Surface.Update] at hs
      exact ⟨tree_expression hΓ h.1 (by rw [hleft]; exact hs.1), tree_expression hΓ h.2 hs.2.2.1⟩
    | _ => simp only [erase, hleft, Surface.Update] at hs
  | unary _ operand =>
    cases hoperand : operand.erase with
    | ident =>
      simp only [erase, hoperand, Surface.Update] at hs
      exact tree_expression hΓ (n := operand) h (by rw [hoperand]; exact hs.1)
    | _ => simp only [erase, hoperand, Surface.Update] at hs
  | _ => exact hs.elim

mutual

theorem tree_statement {Γ : List Entity} (hΓ : Sees E Γ) {n : Node} (h : Lexical.Statement Γ n)
    (hs : Surface.Statement n.erase) (hcovers : Covers E n.declared n.mentions) : Tree E n := by
  cases n with
  | varDecl _ _ init =>
    obtain ⟨-, hinit, v, rfl, rfl, -⟩ := h
    have hcovers : Covers E ([v.id] ++ []) ((ofVariable true v).own ++ init.mentions) := by
      simpa [declared, mentions] using hcovers
    have hv : E.Has v.id v.name := hcovers.declared (m := ofVariable true v) rfl hs.2.1
    refine ⟨fun v' hv' => ?_, tree_init hΓ hinit hs.2.2.1⟩
    obtain rfl := Option.some.inj hv'
    exact hv
  | assign => exact ⟨tree_expression hΓ h.1 hs.1.expression, tree_expression hΓ h.2 hs.2⟩
  | funDecl _ _ _ _ body =>
    obtain ⟨-, f, ps, rfl, rfl, rfl, -, hps, hbody⟩ := h
    obtain ⟨-, hname, ⟨ps', hps', hparams⟩, hpresent, -⟩ := hs
    have hcovers : Covers E ([f.id] ++ (parameterIds (some ps) ++ declaredIn body))
        ((Mention.ofFunction true f).own ++ (ofParameters ps ++ mentionsIn body)) := by
      simpa [declared, mentions] using hcovers
    have hf : E.Has f.id f.name := hcovers.declared (m := Mention.ofFunction true f) rfl hname
    have hnames : ∀ p ∈ ps, IsName p.name := by
      intro p hp
      have hmem : p.erase ∈ ps' := Option.some.inj hps' ▸ List.mem_map_of_mem hp
      exact (hparams p.erase hmem).2.1
    have hvars := parameters_covered hps hnames hcovers.right.left
    have hsees := sees_parameterEntities (hΓ.cons (e := .fn f) hf) hvars
    refine ⟨fun f' hf' => ?_, hvars, tree_block hsees hbody hpresent.default hcovers.right.right⟩
    obtain rfl := Option.some.inj hf'
    exact hf
  | ifElse cases =>
    have hne : cases ≠ [] := by
      rintro rfl
      exact hs.1 rfl
    have harms := Surface.branches_iff.mp hs.2.1
    exact ⟨hne, tree_arms hΓ h.1 (fun a ha => (harms a ha).imp_right (·.default)) hcovers.left,
      tree_block hΓ h.2 hs.2.2.default hcovers.right⟩
  | whileLoop => exact ⟨tree_expression hΓ h.1 hs.1, tree_block hΓ h.2 hs.2.default (Covers.behind hcovers)⟩
  | forLoop _ init condition step body =>
    obtain ⟨-, hinit, v, rfl, rfl, -, -, hcondition, hstep, hbody⟩ := h
    have hcovers : Covers E ([v.id] ++ declaredIn body) ((ofVariable true v).own ++
        (init.mentions ++ (condition.mentions ++ (step.mentions ++ mentionsIn body)))) := by
      simpa [declared, mentions] using hcovers
    have hv : E.Has v.id v.name := hcovers.declared (m := ofVariable true v) rfl hs.1
    have hsees : Sees E (.var v :: Γ) := hΓ.cons hv
    refine ⟨fun v' hv' => ?_, tree_expression hΓ hinit hs.2.1, tree_expression hsees hcondition hs.2.2.1,
      tree_update hsees hstep hs.2.2.2.1,
      tree_block hsees hbody hs.2.2.2.2.1.default hcovers.right.behind.behind.behind⟩
    obtain rfl := Option.some.inj hv'
    exact hv
  | switch =>
    have harms := Surface.clauses_iff.mp hs.2.2.1
    have hcovers := Covers.behind hcovers
    exact ⟨tree_expression hΓ h.1 hs.1.expression,
      tree_arms hΓ h.2.1 (fun a ha => (harms a ha).imp_right (·.default)) hcovers.left,
      tree_block hΓ h.2.2 hs.2.2.2 hcovers.right⟩
  | giveBack value => exact tree_expression hΓ (n := value) h hs
  | giveBackNothing | chop | next => exact trivial
  | call =>
    exact ⟨tree_callee hΓ h.1 (hs.1.imp (·.expression) (·.elim (⟨_, ·⟩) (⟨_, ·⟩))) (tree_expression hΓ h.1),
      tree_arguments hΓ h.2 hs.2.1⟩
  | classDecl => exact h.elim
  | _ => exact hs.elim (tree_update hΓ h) (tree_expression hΓ h)

theorem trees_of_statements {Γ : List Entity} (hΓ : Sees E Γ) : ∀ {l : List Node}, Lexical.Statements Γ l →
    Surface.Statements (Node.eraseAll l) → Covers E (Node.declaredInAll l) (Node.mentionsOfAll l) → Trees E l
  | [], _, _, _ => trivial
  | n :: _, h, hs, hcovers => by
    have hn : Tree E n := tree_statement hΓ h.1 hs.1 (Covers.left hcovers)
    exact ⟨hn, trees_of_statements (sees_behind hΓ hn) h.2 hs.2 (Covers.right hcovers)⟩

theorem tree_block {Γ : List Entity} (hΓ : Sees E Γ) : ∀ {l : Option (List Node)}, Lexical.Block Γ l →
    Surface.Default (Node.eraseIn l) → Covers E (declaredIn l) (mentionsIn l) → Optional E l
  | none, _, _, _ => trivial
  | some ns, h, hs, hcovers => trees_of_statements hΓ (l := ns) h hs hcovers

theorem tree_arms {Γ : List Entity} (hΓ : Sees E Γ) : ∀ {l : List (Arm Node)}, Lexical.Arms Γ l →
    (∀ a ∈ Node.eraseArms l, Surface.Expression a.guard ∧ Surface.Default a.body) →
    Covers E (Node.declaredInArms l) (Node.mentionsOfArms l) → Arms E l
  | [], _, _, _ => trivial
  | ⟨_, _⟩ :: _, h, hs, hcovers => by
    rw [Node.eraseArms, List.forall_mem_cons] at hs
    have hcovers := Covers.behind hcovers
    exact ⟨tree_expression hΓ h.1 hs.1.1, tree_block hΓ h.2.1 hs.1.2 hcovers.left,
      tree_arms hΓ h.2.2 hs.2 hcovers.right⟩

end

end Vocabulary

namespace Program

variable {p : Program}

def vocabulary (p : Program) (h : p.WellFormed) : Vocabulary where
  Has id name := Library.isLibrary id = false ∧ IsName name ∧ ⟨id, name, true⟩ ∈ p.mentions
  own := (·.1)
  isName := (·.2.1)
  unique := by
    rintro id name name' ⟨-, -, hmem⟩ ⟨-, -, hmem'⟩
    have hnodup : ((p.mentions.filter (·.declares)).map (·.id)).Nodup := by
      rw [Program.mentions, (Scoped.accounted_block h.inScope h.own).declaring]
      exact h.nodup
    have heq := List.inj_on_of_nodup_map hnodup (List.mem_filter.mpr ⟨hmem, rfl⟩)
      (List.mem_filter.mpr ⟨hmem', rfl⟩) rfl
    exact congrArg Mention.name heq

theorem covers_mentions (h : p.WellFormed) :
    Vocabulary.Covers (p.vocabulary h) (declaredIn p.statements) p.mentions where
  own := h.own
  has := by
    intro m hm hdeclares hname
    have hid : m.id ∈ declaredIn p.statements := by
      rw [← (Scoped.accounted_block h.inScope h.own).declaring]
      exact List.mem_map_of_mem (List.mem_filter.mpr ⟨hm, hdeclares⟩)
    obtain ⟨id, name, declares⟩ := m
    obtain rfl : declares = true := hdeclares
    exact ⟨h.own id hid, hname, hm⟩

theorem tree_vocabulary (h : p.WellFormed) (hlexical : Lexical.Block entities p.statements)
    (hsurface : p.erase.Surface) : Vocabulary.Optional (p.vocabulary h) p.statements :=
  Vocabulary.tree_block (fun _ => .inl) hlexical hsurface.statements.default (covers_mentions h)

end Program

end LemonScript
