import LemonScript.Proofs.Simplify.Kept
import LemonScript.Proofs.Syntax.Mention
/-!
# Simplification adds no entities

What is left of a tree, and what is written out, uses the entities of the tree. An `if` that has lost all
its conditions is not there any more.
-/

namespace LemonScript

namespace Vocabulary

open Simplify

variable {E : Vocabulary}
variable {n : Node} {f : Node → Node} {l : Option (List Node)}

theorem tree_combine {left right : Node} (op : BinaryOp) (type : Ty) (hleft : Tree E left)
    (hright : Tree E right) : Tree E (combine left op right type) := by
  have hcombined := combined_combine left op right type
  generalize combine left op right type = n at hcombined ⊢
  cases hcombined with
  | int | string | bool | float => trivial
  | left => exact hleft
  | right | negated => exact hright
  | kept => exact ⟨hleft, hright⟩

theorem tree_combineUnary {op : UnaryOp} {operand : Node} (leading : Bool) (type : Ty)
    (h : Tree E operand) : Tree E (combineUnary op operand leading type) := by
  have hcombined := combinedUnary_combineUnary op operand leading type
  generalize combineUnary op operand leading type = n at hcombined ⊢
  cases hcombined with
  | int | bool | float => trivial
  | kept => exact h

theorem isLibraryFunction_simpler (h : n.isLibraryFunction) : (simpler n).isLibraryFunction := by
  cases n <;> first | exact h | cases h

theorem isLibraryFunction_put (id value : Int) (h : n.isLibraryFunction) :
    (put id value n).isLibraryFunction := by
  cases n <;> first | exact h | cases h

theorem optional_map (h : Optional E l) (hf : ∀ m ∈ l.getD [], Tree E m → Tree E (f m)) :
    Optional E (l.map (List.map f)) := by
  rw [optional_iff, Node.getD_map_map, List.forall_mem_map]
  exact fun m hm => hf m hm (optional_iff.mp h m hm)

theorem tree_mapChildren (h : Tree E n)
    (hlibrary : ∀ {m : Node}, m.isLibraryFunction → (f m).isLibraryFunction)
    (hf : ∀ m ∈ n.children, Tree E m → Tree E (f m)) : Tree E (n.mapChildren f) := by
  cases n with
  | binary | property | assign => exact ⟨hf _ (.head _) h.1, hf _ (.tail _ (.head _)) h.2⟩
  | unary | member | giveBack => exact hf _ (.head _) h
  | call =>
    obtain ⟨hcallee, hargs⟩ := List.forall_mem_cons.mp hf
    exact ⟨h.1.imp hlibrary hcallee, optional_map h.2 hargs⟩
  | arrayLit => exact optional_map h hf
  | mapLit entries type =>
    have hentries : ∀ m ∈ ((Node.mapLit entries type).mapChildren f).children, Tree E m := by
      rw [Node.children_mapChildren rfl, List.forall_mem_map]
      exact fun m hm => hf m hm (entries_iff.mp h m hm)
    exact entries_iff.mpr hentries
  | _ => exact h

theorem tree_simpler (h : Tree E n) : Tree E (simpler n) := by
  induction n with
  | h n ih =>
  have hchildren := tree_mapChildren h isLibraryFunction_simpler ih
  cases n with
  | binary left op right type =>
    have hleft := ih left (.head _) h.1
    have hright := ih right (.tail _ (.head _)) h.2
    unfold simpler
    split
    · exact ⟨h.1, hright⟩
    · exact ⟨h.1, hright⟩
    · exact tree_combine op type hleft hright
  | unary op operand leading type => exact tree_combineUnary leading type (ih operand (.head _) h)
  | call | arrayLit =>
    rw [simpler, simplerOptional_eq_map]
    exact hchildren
  | mapLit =>
    rw [simpler, simplerEntries_eq_map]
    exact hchildren
  | member | property => exact hchildren
  | _ => exact h

theorem tree_put (id value : Int) (h : Tree E n) : Tree E (put id value n) := by
  induction n with
  | h n ih =>
  by_cases hvar : ∃ v, n = .var v
  · obtain ⟨v, rfl⟩ := hvar
    unfold put
    split
    · trivial
    · exact h
  · rw [put_eq_mapChildren id value fun v hv => hvar ⟨v, hv⟩]
    exact tree_mapChildren h (isLibraryFunction_put id value) ih

theorem optional_assign {target source : Node} (htarget : Tree E target) (hsource : Tree E source) :
    Optional E (assign target source) := by
  unfold assign
  split
  · trivial
  · exact ⟨⟨htarget, hsource⟩, trivial⟩

theorem optional_plain (h : Tree E n) : Optional E (plain n) := by
  have hcompound : ∀ {left right op type}, Tree E left → Tree E right →
      Optional E (assign (simpler left) (combine (simpler left) op (simpler right) type)) := by
    intro left right op type hleft hright
    have hleft := tree_simpler hleft
    exact optional_assign hleft (tree_combine op type hleft (tree_simpler hright))
  unfold plain
  split
  · exact ⟨⟨h.1, tree_simpler h.2⟩, trivial⟩
  · exact optional_assign (tree_simpler h.1) (tree_simpler h.2)
  · exact ⟨tree_simpler h, trivial⟩
  · exact hcompound h.1 h.2
  · exact hcompound h.1 h.2
  · exact ⟨tree_simpler h, trivial⟩

theorem kept_tree : Kept (Tree E) where
  simpler := tree_simpler
  plain h := optional_iff.mp (optional_plain h)
  put _ value _ h := tree_put _ value h
  part := fun {n} hplain h => by
    cases n with
    | funDecl => exact optional_iff.mp h.2.2
    | ifElse => exact List.forall_mem_append.mpr ⟨arms_iff.mp h.2.1, optional_iff.mp h.2.2⟩
    | whileLoop => exact List.forall_mem_cons.mpr ⟨h.1, optional_iff.mp h.2⟩
    | forLoop =>
      simp only [Node.children, List.forall_mem_cons]
      exact ⟨h.2.1, h.2.2.1, h.2.2.2.1, optional_iff.mp h.2.2.2.2⟩
    | switch =>
      exact List.forall_mem_cons.mpr ⟨h.1, List.forall_mem_append.mpr ⟨arms_iff.mp h.2.1, optional_iff.mp h.2.2⟩⟩
    | _ => cases hplain
  whole hrebuilt h hchildren := by
    cases hrebuilt with
    | funDecl => exact ⟨h.1, h.2.1, optional_iff.mpr hchildren⟩
    | ifElse hcases =>
      obtain ⟨harms, hotherwise⟩ := List.forall_mem_append.mp hchildren
      exact ⟨hcases, arms_iff.mpr harms, optional_iff.mpr hotherwise⟩
    | whileLoop =>
      obtain ⟨hcondition, hbody⟩ := List.forall_mem_cons.mp hchildren
      exact ⟨hcondition, optional_iff.mpr hbody⟩
    | forLoop =>
      simp only [Node.children, List.forall_mem_cons] at hchildren
      obtain ⟨hinit, hcondition, hstep, hbody⟩ := hchildren
      exact ⟨h.1, hinit, hcondition, hstep, optional_iff.mpr hbody⟩
    | switch =>
      obtain ⟨hscrutinee, hrest⟩ := List.forall_mem_cons.mp hchildren
      obtain ⟨harms, hdefault⟩ := List.forall_mem_append.mp hrest
      exact ⟨hscrutinee, arms_iff.mpr harms, optional_iff.mpr hdefault⟩

theorem optional_block (o : SimplifyOptions) (h : Optional E l) : Optional E (simplerBlock o l) :=
  optional_iff.mpr (kept_tree.block (optional_iff.mp h))

end Vocabulary

end LemonScript
