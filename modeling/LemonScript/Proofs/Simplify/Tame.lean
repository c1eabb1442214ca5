import LemonScript.Proofs.Simplify.Kept
/-!
# Trees whose operands can be dropped

Simplification drops operands of `*`, `/` and `^`, and it folds doubles. A tree is tame if no call is
lost by the former, and if the latter does not happen. Simplified trees and copies of loop bodies
stay tame.
-/

namespace LemonScript

namespace Node

def notFloat (n : Node) : Bool :=
  match n.typeOf with
  | .base .float => false
  | _ => true

def notCall : Node → Bool
  | .call .. => false
  | _ => true

end Node

def BinaryOp.isFactor : BinaryOp → Bool
  | .mul | .div | .pow => true
  | _ => false

def Node.plainFactors : Node → Bool
  | .binary left op right _ => !op.isFactor || (left.every notCall && right.every notCall)
  | _ => true

/-! ### Tame trees -/

namespace Tame

variable {l : Option (List Node)} {n : Node}

mutual

/-- No double is written in the tree, no operand that may be dropped has a call, and no part of it has
one unless calls are allowed. -/
def Tree (calls : Prop) : Node → Prop
  | .floatLit _ => False
  | .call callee args _ => calls ∧ Tree calls callee ∧ Optional calls args
  | .binary left op right _ =>
    Tree (calls ∧ op.isFactor = false) left ∧ Tree (calls ∧ op.isFactor = false) right
  | .unary _ operand _ _ => Tree calls operand
  | .arrayLit elements _ => Optional calls elements
  | .mapLit entries _ => Entries calls entries
  | .member array _ _ => Tree calls array
  | .property map key _ => Tree calls map ∧ Tree calls key
  | .varDecl _ _ init _ _ _ => Tree calls init
  | .assign target source => Tree calls target ∧ Tree calls source
  | .giveBack value => Tree calls value
  | .funDecl _ _ _ _ body _ => Optional calls body
  | .ifElse cases otherwise => Arms calls cases ∧ Optional calls otherwise
  | .whileLoop condition body => Tree calls condition ∧ Optional calls body
  | .forLoop _ init condition step body _ =>
    Tree calls init ∧ Tree calls condition ∧ Tree calls step ∧ Optional calls body
  | .switch scrutinee cases otherwise =>
    Tree calls scrutinee ∧ Arms calls cases ∧ Optional calls otherwise
  | _ => True

def Trees (calls : Prop) : List Node → Prop
  | [] => True
  | n :: ns => Tree calls n ∧ Trees calls ns

def Optional (calls : Prop) : Option (List Node) → Prop
  | none => True
  | some ns => Trees calls ns

def Arms (calls : Prop) : List (Arm Node) → Prop
  | [] => True
  | ⟨guard, body⟩ :: rest => Tree calls guard ∧ Optional calls body ∧ Arms calls rest

def Entries (calls : Prop) : List (Entry Node) → Prop
  | [] => True
  | ⟨key, value⟩ :: rest => Tree calls key ∧ Tree calls value ∧ Entries calls rest

end

section Children

variable {c : Prop} {n : Node}

theorem trees_iff {l : List Node} : Trees c l ↔ ∀ n ∈ l, Tree c n :=
  Node.forall_mem_iff trivial fun _ _ => Iff.rfl

theorem optional_iff : Optional c l ↔ ∀ n ∈ l.getD [], Tree c n :=
  Node.forall_mem_getD_iff trivial fun _ => trees_iff

theorem arms_iff {l : List (Arm Node)} : Arms c l ↔ ∀ n ∈ l.flatMap Arm.children, Tree c n :=
  Node.forall_mem_arms_iff trivial fun _ _ => by rw [Arms, optional_iff]

theorem entries_iff {l : List (Entry Node)} : Entries c l ↔ ∀ n ∈ l.flatMap Entry.children, Tree c n :=
  Node.forall_mem_entries_iff trivial fun _ _ => Iff.rfl

/-- What a tame tree is at its root. -/
def Root (calls : Prop) : Node → Prop
  | .floatLit _ => False
  | .call .. => calls
  | _ => True

def Below (calls : Prop) : Node → Prop
  | .binary _ op _ _ => calls ∧ op.isFactor = false
  | _ => calls

/-- Whether a node may be a statement or a part of one. -/
def occurs : Node → Bool
  | .program .. | .classDecl .. | .ifCase _ | .switchCase _ | .entry _ => false
  | _ => true

theorem tree_iff (h : occurs n) : Tree c n ↔ Root c n ∧ ∀ m ∈ n.children, Tree (Below c n) m := by
  cases n with
  | program | classDecl | ifCase | switchCase | entry => cases h
  | _ =>
    simp only [Tree, Root, Below, Node.children, optional_iff, arms_iff, entries_iff, List.forall_mem_append,
      List.forall_mem_cons, List.not_mem_nil, false_implies, implies_true, and_true, true_and]

theorem tree_of_not_occurs (h : occurs n = false) : Tree c n := by
  cases n <;> trivial

theorem tree_of_children (hroot : Root c n) (h : ∀ m ∈ n.children, Tree (Below c n) m) : Tree c n := by
  cases hoccurs : occurs n with
  | false => exact tree_of_not_occurs hoccurs
  | true => exact (tree_iff hoccurs).mpr ⟨hroot, h⟩

theorem Tree.mono {d : Prop} (h : c → d) (hn : Tree c n) : Tree d n := by
  induction n generalizing c d with
  | h n ih =>
  cases hoccurs : occurs n with
  | false => exact tree_of_not_occurs hoccurs
  | true =>
    rw [tree_iff hoccurs] at hn ⊢
    refine ⟨?_, fun m hm => ih m hm ?_ (hn.2 m hm)⟩
    · cases n <;> first | exact hn.1 | exact h hn.1
    · cases n <;> first | exact h | exact And.imp_left h

theorem Tree.not_isFloat (h : Tree c n) : Simplify.isFloat n = false := by
  cases n <;> first | rfl | exact h.elim

theorem trees_getD (h : Optional c l) : Trees c (l.getD []) :=
  trees_iff.mpr (optional_iff.mp h)

end Children

/-! ### Tame trees from what holds of all nodes -/

section Every

open Node (every everyIn everyIn_iff every_iff notFloat plainFactors notCall)

variable {c : Prop}

theorem tree_of_every (hfloat : every notFloat n) (hplain : every plainFactors n)
    (hcall : c ∨ every notCall n) : Tree c n := by
  induction n generalizing c with
  | h n ih =>
  rw [every_iff] at hfloat hplain hcall
  refine tree_of_children ?_ fun m hm => ih m hm (hfloat.2 m hm) (hplain.2 m hm) ?_
  · cases n with
    | floatLit => exact absurd hfloat.1 Bool.false_ne_true
    | call => exact hcall.resolve_right fun h => absurd h.1 Bool.false_ne_true
    | _ => trivial
  · cases n with
    | binary left op right =>
      -- An operand that may be dropped has no calls, whether they are allowed or not.
      cases hop : op.isFactor with
      | true =>
        have hoperands : left.every notCall = true ∧ right.every notCall = true := by
          simpa [plainFactors, hop] using hplain.1
        rcases List.mem_pair.mp hm with rfl | rfl
        · exact .inr hoperands.1
        · exact .inr hoperands.2
      | false => exact hcall.imp (⟨·, hop⟩) fun h => h.2 m hm
    | _ => exact hcall.imp_right fun h => h.2 m hm

theorem optional_of_every (hfloat : everyIn notFloat l)
    (hplain : everyIn plainFactors l) (hcall : c ∨ everyIn notCall l) : Optional c l := by
  rw [everyIn_iff] at hfloat hplain hcall
  refine optional_iff.mpr fun n hn => tree_of_every (hfloat n hn) (hplain n hn) ?_
  exact hcall.imp_right fun h => h n hn

end Every

/-! ### What simplification keeps -/

section Simpler

open Simplify

theorem tree_combine {c : Prop} {left right : Node} {op : BinaryOp} (type : Ty)
    (hleft : Tree (c ∧ op.isFactor = false) left) (hright : Tree (c ∧ op.isFactor = false) right) :
    Tree c (combine left op right type) := by
  have hcombined := combined_combine left op right type
  generalize combine left op right type = n at hcombined ⊢
  cases hcombined with
  | int | string | bool => trivial
  | float _ h =>
    rcases h with h | h
    · exact absurd h (by simp [hleft.not_isFloat])
    · exact absurd h (by simp [hright.not_isFloat])
  | left => exact hleft.mono (·.1)
  | right | negated => exact hright.mono (·.1)
  | kept => exact ⟨hleft, hright⟩

theorem tree_combineUnary {c : Prop} {op : UnaryOp} {operand : Node} (leading : Bool) (type : Ty)
    (h : Tree c operand) : Tree c (combineUnary op operand leading type) := by
  have hcombined := combinedUnary_combineUnary op operand leading type
  generalize combineUnary op operand leading type = n at hcombined ⊢
  cases hcombined with
  | int | bool => trivial
  | float _ hfloat => exact absurd hfloat (by simp [h.not_isFloat])
  | kept => exact h

theorem tree_mapChildren {c : Prop} {f : Node → Node} (h : Tree c n)
    (hf : ∀ m ∈ n.children, Tree (Below c n) m → Tree (Below c n) (f m)) :
    Tree c (n.mapChildren f) := by
  cases hopen : n.isOpen with
  | false =>
    rw [Node.mapChildren_of_not_isOpen hopen]
    exact h
  | true =>
    have hoccurs : occurs n = true := by cases n <;> first | rfl | cases hopen
    have hroot : Root c (n.mapChildren f) ↔ Root c n := by cases n <;> rfl
    have hbelow : Below c (n.mapChildren f) = Below c n := by cases n <;> rfl
    obtain ⟨hself, hchildren⟩ := (tree_iff hoccurs).mp h
    refine tree_of_children (hroot.mpr hself) ?_
    rw [hbelow, Node.children_mapChildren hopen]
    exact List.forall_mem_map.mpr fun m hm => hf m hm (hchildren m hm)

theorem tree_simpler {c : Prop} (h : Tree c n) : Tree c (simpler n) := by
  induction n generalizing c with
  | h n ih =>
  have hchildren := tree_mapChildren h fun m hm => ih m hm
  cases n with
  | binary left op right type =>
    have hleft := ih left (.head _) h.1
    have hright := ih right (.tail _ (.head _)) h.2
    cases op <;> first | exact tree_combine type hleft hright | exact ⟨h.1, hright⟩
  | unary op operand leading type => exact tree_combineUnary leading type (ih operand (.head _) h)
  | call | arrayLit =>
    rw [simpler, simplerOptional_eq_map]
    exact hchildren
  | mapLit =>
    rw [simpler, simplerEntries_eq_map]
    exact hchildren
  | member | property => exact hchildren
  | _ => exact h

theorem tree_put {c : Prop} (id value : Int) (h : Tree c n) : Tree c (put id value n) := by
  induction n generalizing c with
  | h n ih =>
  by_cases hvar : ∃ v, n = .var v
  · obtain ⟨v, rfl⟩ := hvar
    unfold put
    split <;> trivial
  · rw [put_eq_mapChildren id value fun v hv => hvar ⟨v, hv⟩]
    exact tree_mapChildren h fun m hm => ih m hm

variable {c : Prop}

theorem optional_assign {target source : Node} (htarget : Tree c target) (hsource : Tree c source) :
    Optional c (assign target source) := by
  unfold assign
  split
  · trivial
  · exact ⟨⟨htarget, hsource⟩, trivial⟩

theorem optional_plain (h : Tree c n) : Optional c (plain n) := by
  have hcompound : ∀ {left right op type}, Tree (c ∧ op.isFactor = false) left →
      Tree (c ∧ op.isFactor = false) right →
      Optional c (assign (simpler left) (combine (simpler left) op (simpler right) type)) := by
    intro left right op type hleft hright
    have hleft := tree_simpler hleft
    exact optional_assign (hleft.mono (·.1)) (tree_combine type hleft (tree_simpler hright))
  unfold plain
  split
  · exact ⟨tree_simpler h, trivial⟩
  · exact optional_assign (tree_simpler h.1) (tree_simpler h.2)
  · exact ⟨tree_simpler h, trivial⟩
  · exact hcompound h.1 h.2
  · exact hcompound h.1 h.2
  · exact ⟨tree_simpler h, trivial⟩

theorem kept_tree : Kept (Tree c) where
  simpler := tree_simpler
  plain h := optional_iff.mp (optional_plain h)
  put _ value _ h := tree_put _ value h
  part := fun {n} hplain h => by cases n <;> first | exact ((tree_iff rfl).mp h).2 | cases hplain
  whole hrebuilt _ hchildren := by
    refine tree_of_children ?_ ?_
    · cases hrebuilt <;> trivial
    · cases hrebuilt <;> exact hchildren

theorem optional_block (o : SimplifyOptions) (h : Optional c l) : Optional c (simplerBlock o l) :=
  optional_iff.mpr (kept_tree.block (optional_iff.mp h))

end Simpler

end Tame

end LemonScript
