import LemonScript.Proofs.Syntax.Mention
import LemonScript.Proofs.Typing.Placed
/-!
# The names in the parts of a program

The parts of a tree over a vocabulary are trees over it as well, up to the functions of the library that are
called, and a part of an expression names nothing that the expression does not name.
-/

namespace LemonScript

open List (forall_mem_cons forall_mem_nil forall_mem_singleton subset_append_left
  subset_append_right)

variable {n m : Node} {Γ : Site} {E : Vocabulary}

namespace Vocabulary

variable {E : Vocabulary} {Γ : Site}

/-- A tree over the vocabulary, or the function of the library that is called. -/
def Part (E : Vocabulary) (n : Node) : Prop := n.isLibraryFunction = true ∨ Tree E n

theorem Tree.children (hn : Scoped.Statement Γ n) (h : Tree E n) : ∀ c ∈ n.children, Part E c := by
  have parts {l : List Node} (hl : ∀ c ∈ l, Tree E c) : ∀ c ∈ l, Part E c := fun c hc => .inr (hl c hc)
  cases n with
  | varDecl => exact parts (forall_mem_singleton.mpr h.2)
  | assign | binary | property => exact parts (forall_mem_two h.1 h.2)
  | funDecl => exact parts (optional_iff.mp h.2.2)
  | ifElse => exact parts (List.forall_mem_append.mpr ⟨arms_iff.mp h.2.1, optional_iff.mp h.2.2⟩)
  | whileLoop => exact parts (forall_mem_cons.mpr ⟨h.1, optional_iff.mp h.2⟩)
  | forLoop =>
    exact parts (forall_mem_cons.mpr ⟨h.2.1, forall_mem_cons.mpr ⟨h.2.2.1,
      forall_mem_cons.mpr ⟨h.2.2.2.1, optional_iff.mp h.2.2.2.2⟩⟩⟩)
  | switch =>
    exact parts (forall_mem_cons.mpr ⟨h.1, List.forall_mem_append.mpr
      ⟨arms_iff.mp h.2.1, optional_iff.mp h.2.2⟩⟩)
  | giveBack value | unary _ value _ _ | member value _ _ => exact parts (forall_mem_singleton.mpr h)
  | call => exact forall_mem_cons.mpr ⟨h.1, parts (optional_iff.mp h.2)⟩
  | arrayLit => exact parts (optional_iff.mp h)
  | mapLit => exact parts (entries_iff.mp h)
  | program | classDecl | ifCase | switchCase | entry => exact hn.elim False.elim False.elim
  | _ => exact forall_mem_nil _

theorem Part.children (hn : Scoped.Statement Γ n) (h : Part E n) : ∀ c ∈ n.children, Part E c := by
  rcases h with hlibrary | h
  · cases n with
    | fn f => exact forall_mem_nil _
    | _ => cases hlibrary
  · exact h.children hn

end Vocabulary

namespace Node

theorem mentions_subset_mentionsOfAll {ns : List Node} : ∀ n ∈ ns, n.mentions ⊆ mentionsOfAll ns := by
  induction ns with
  | nil => exact forall_mem_nil _
  | cons n ns ih =>
    refine forall_mem_cons.mpr ⟨subset_append_left _ _, fun m hm => ?_⟩
    exact List.Subset.trans (ih m hm) (subset_append_right _ _)

theorem mentions_subset_mentionsIn {ns : Option (List Node)} : ∀ n ∈ ns.getD [], n.mentions ⊆ mentionsIn ns := by
  cases ns with
  | none => exact forall_mem_nil _
  | some ns => exact mentions_subset_mentionsOfAll

theorem mentions_subset_mentionsOfEntries {es : List (Entry Node)} :
    ∀ n ∈ es.flatMap Entry.children, n.mentions ⊆ mentionsOfEntries es := by
  induction es with
  | nil => exact forall_mem_nil _
  | cons e es ih =>
    rw [List.flatMap_cons, List.forall_mem_append, mentionsOfEntries]
    refine ⟨forall_mem_two (subset_append_left _ _) ?_, fun m hm => ?_⟩
    · exact List.Subset.trans (subset_append_left _ _) (subset_append_right _ _)
    · exact List.Subset.trans (ih m hm)
        (List.Subset.trans (subset_append_right _ _) (subset_append_right _ _))

end Node

theorem Scoped.mentions_subset (h : Update Γ n ∨ Expression Γ n) :
    ∀ c ∈ n.children, c.mentions ⊆ n.mentions := by
  cases n with
  | binary | property =>
    exact forall_mem_two (subset_append_left _ _) (subset_append_right _ _)
  | unary | member => exact forall_mem_singleton.mpr (List.Subset.refl _)
  | call =>
    refine forall_mem_cons.mpr ⟨subset_append_left _ _, fun c hc => ?_⟩
    exact List.Subset.trans (Node.mentions_subset_mentionsIn c hc) (subset_append_right _ _)
  | arrayLit => exact Node.mentions_subset_mentionsIn
  | mapLit => exact Node.mentions_subset_mentionsOfEntries
  | intLit | floatLit | stringLit | boolLit | var | fn => exact forall_mem_nil _
  | _ => exact h.elim False.elim False.elim

theorem Scoped.Placed.part (hm : m.PartOf n) (h : Placed Γ n) (hn : Vocabulary.Part E n) :
    Vocabulary.Part E m := by
  induction hm generalizing Γ with
  | refl => exact hn
  | child hc hm ih =>
    rcases h.children _ hc with rfl | ⟨Δ, hplaced, -⟩
    · exact hm.of_missing ▸ .inr trivial
    · exact ih hplaced (hn.children h.inScope _ hc)

theorem Program.WellFormed.part {p : Program} (h : p.WellFormed)
    (hE : Vocabulary.Optional E p.statements) (hm : m.PartOf p.node) :
    m = p.node ∨ Vocabulary.Part E m := by
  cases hm with
  | refl => exact .inl rfl
  | child hc hm =>
    have hnew : Scoped.New .top (Node.declaredIn p.statements) := ⟨h.nodup, fun _ _ => id⟩
    right
    rcases Scoped.beneath_of_block h.inScope hnew _ hc with rfl | ⟨Δ, hplaced, -⟩
    · exact hm.of_missing ▸ .inr trivial
    · exact hplaced.part hm (.inr (Vocabulary.optional_iff.mp hE _ hc))

end LemonScript
