import LemonScript.Proofs.Typing.KeyText
import LemonScript.Proofs.Typing.Subtype
import LemonScript.Proofs.Typing.Typed
/-!
# Members of literals

The members of a literal are compared with the first one only, which gives the literal its type. If the
type of an empty literal occurs in that type, members of different types may be equivalent to it. A
literal is settled when each member alone may turn out to be whatever the literal may turn out to be, as
is the case when no empty literal's type occurs in its type. The members of a settled literal are accepted
wherever the literal is accepted, and in every order. A literal that is not settled is accepted for some
type for which one of its members is not.
-/

namespace LemonScript

open Analysis (distinct distinct_iff uniform)

variable {t u : Ty}

namespace Ty

/-- The first type is accepted wherever the second one is, be it for a declaration or for an assignment. -/
def FitsLike (t u : Ty) : Prop :=
  ∀ expected : Ty, (expected.equivalent u → expected.equivalent t) ∧ (u.assignable expected → t.assignable expected)

theorem Covers.fitsLike (h : Covers t u) : FitsLike t u :=
  fun _ => ⟨h.equivalent_of_equivalent, h.assignable⟩

end Ty

namespace Node

/-- The types that the literal would have if it had only one of its members. -/
def memberTypes : Node → List Ty
  | .arrayLit elements _ => (elements.getD []).map fun e => .array e.typeOf
  | .mapLit entries _ => entries.map fun e => .map e.key.typeOf e.value.typeOf
  | _ => []

/-- Each member alone may turn out to be whatever the literal may turn out to be. -/
def Settled (n : Node) : Prop := ∀ t ∈ n.memberTypes, Ty.Covers t n.typeOf

/-- The value of a node is used where a type is expected: it is stored in a variable, passed to a
function or given back by one. -/
def Uses : Node → Node → Ty → Prop
  | .varDecl type _ init _ _ _, n, t => n = init ∧ n ≠ .missing ∧ t = type
  | .assign target source, n, t => n = source ∧ t = target.typeOf
  | .call callee args _, n, t =>
    ∃ (params : List Ty) (result : Ty) (k : Nat), callee.typeOf = .func params result ∧
      (args.getD [])[k]? = some n ∧ params[k]? = some t
  | .funDecl _ _ result _ body _, n, t => t = result ∧ ∃ c ∈ body.getD [], c.Returns n
  | _, _, _ => False

/-- Where a type is expected for a literal, the types of its members are expected for them, and so on in
literals in it. -/
inductive Holds (n : Node) (t : Ty) : Node → Ty → Prop
  | self : Holds n t n t
  | element {elements : Option (List Node)} {type u : Ty} {e : Node}
    (h : Holds n t (.arrayLit elements type) (.array u)) (he : e ∈ elements.getD []) : Holds n t e u
  | key {entries : List (Entry Node)} {type k v : Ty} {e : Entry Node}
    (h : Holds n t (.mapLit entries type) (.map k v)) (he : e ∈ entries) : Holds n t e.key k
  | value {entries : List (Entry Node)} {type k v : Ty} {e : Entry Node}
    (h : Holds n t (.mapLit entries type) (.map k v)) (he : e ∈ entries) : Holds n t e.value v

/-- In whatever order the members stand, they make a literal that is accepted wherever this one is. -/
def Orderless : Node → Prop
  | .arrayLit elements type => ∀ l : List Node, l.Perm (elements.getD []) →
    ∃ t, (∀ s, Analysis.arrayLiteral l s = .ok (.arrayLit (some l) t, s)) ∧ t.FitsLike type
  | .mapLit entries type => ∀ l : List (Entry Node), l.Perm entries →
    ∃ t, (∀ s, Analysis.mapLiteral l s = .ok (.mapLit l t, s)) ∧ t.FitsLike type
  | _ => True

variable {n : Node}
variable {m e : Node}

theorem Typed.equivalent_of_mem (hn : n.Typed) (ht : t ∈ n.memberTypes) :
    t.equivalent n.typeOf := by
  cases n with
  | arrayLit elements =>
    obtain ⟨halike, rfl⟩ := hn
    obtain ⟨e, he, rfl⟩ := List.mem_map.mp ht
    cases hl : elements.getD [] with
    | nil => simp [hl] at he
    | cons =>
      rw [hl] at he halike
      rcases List.mem_cons.mp he with rfl | he
      · exact Ty.equivalent_refl _
      · exact halike e he
  | mapLit entries =>
    obtain ⟨hkeys, hvalues, -, rfl⟩ := hn
    obtain ⟨e, he, rfl⟩ := List.mem_map.mp ht
    cases entries with
    | nil => simp at he
    | cons =>
      rcases List.mem_cons.mp he with rfl | he
      · exact Ty.equivalent_refl _
      · exact Bool.and_eq_true_iff.mpr ⟨hkeys _ (List.mem_map_of_mem he), hvalues _ (List.mem_map_of_mem he)⟩
  | _ => simp [memberTypes] at ht

theorem Typed.settled_of_isExact (hn : n.Typed) (h : n.typeOf.isExact) : n.Settled :=
  fun _ ht => .of_isExact (hn.equivalent_of_mem ht) h

/-- A literal is settled if and only if its members alone are accepted wherever it is accepted. -/
theorem Typed.settled_iff (hn : n.Typed) :
    n.Settled ↔ ∀ expected, expected.isExact → n.typeOf.assignable expected →
      ∀ t ∈ n.memberTypes, t.assignable expected := by
  constructor
  · intro hsettled expected _ hexpected t ht
    exact (hsettled t ht).assignable hexpected
  · intro h t ht
    refine Ty.covers_of_assignable (hn.equivalent_of_mem ht) fun u hu => ?_
    have hequivalent : n.typeOf.equivalent u = true :=
      Ty.equivalent_iff.mpr ⟨u, hu, Ty.standsFor_of_equivalent (Ty.equivalent_refl u) hu.2, hu.2⟩
    exact h u hu.2 (Ty.assignable_of_equivalent _ _ hequivalent) t ht

theorem Typed.assignable_of_uses (hm : m.Typed) (h : m.Uses n t) : n.typeOf.assignable t := by
  cases m with
  | varDecl =>
    obtain ⟨rfl, hpresent, rfl⟩ := h
    exact Ty.assignable_of_equivalent _ _ (Ty.equivalent_symm (hm.2.resolve_left hpresent))
  | assign =>
    obtain ⟨rfl, rfl⟩ := h
    exact hm
  | call =>
    obtain ⟨params, result, k, hcallee, harg, hparam⟩ := h
    obtain ⟨params', hcallee', hfit⟩ := hm
    rw [hcallee] at hcallee'
    cases hcallee'
    obtain ⟨hk, rfl⟩ := List.getElem?_eq_some_iff.mp harg
    obtain ⟨hk', rfl⟩ := List.getElem?_eq_some_iff.mp hparam
    exact hfit.get hk hk'
  | funDecl =>
    obtain ⟨rfl, c, hc, hreturns⟩ := h
    exact hm.2 c hc n hreturns
  | _ => exact h.elim

theorem Returns.partOf {v : Node} (h : n.Returns v) : v.PartOf n := by
  induction h with
  | here v => exact .child (.head _) (.refl v)
  | child hc _ _ ih => exact .child hc ih

theorem Uses.partOf (h : m.Uses n t) : n.PartOf m := by
  cases m with
  | varDecl =>
    obtain ⟨rfl, -, -⟩ := h
    exact .child (.head _) (.refl _)
  | assign =>
    obtain ⟨rfl, rfl⟩ := h
    exact .child (.tail _ (.head _)) (.refl _)
  | call =>
    obtain ⟨params, result, k, -, harg, -⟩ := h
    exact .child (.tail _ (List.mem_of_getElem? harg)) (.refl _)
  | funDecl =>
    obtain ⟨-, c, hc, hreturns⟩ := h
    exact .child hc hreturns.partOf
  | _ => exact h.elim

theorem Holds.partOf (h : n.Holds t e u) : e.PartOf n := by
  induction h with
  | self => exact .refl n
  | element _ he ih => exact (PartOf.child he (.refl _)).trans ih
  | key _ he ih =>
    exact (PartOf.child (List.mem_flatMap.mpr ⟨_, he, .head _⟩) (.refl _)).trans ih
  | value _ he ih =>
    exact (PartOf.child (List.mem_flatMap.mpr ⟨_, he, .tail _ (.head _)⟩) (.refl _)).trans ih

theorem Holds.assignable (h : n.Holds t e u) (hn : n.typeOf.assignable t)
    (hsettled : ∀ k v, n.Holds t k v → k.Settled) : e.typeOf.assignable u := by
  induction h with
  | self => exact hn
  | element hlit he ih => exact (hsettled _ _ hlit _ (List.mem_map_of_mem he)).assignable ih
  | key hlit he ih =>
    exact (Bool.and_eq_true_iff.mp ((hsettled _ _ hlit _ (List.mem_map_of_mem he)).assignable ih)).1
  | value hlit he ih =>
    exact (Bool.and_eq_true_iff.mp ((hsettled _ _ hlit _ (List.mem_map_of_mem he)).assignable ih)).2

theorem uniform_eq {l : List Node} (h : Alike l) (part : LiteralPart) (s : Scope) :
    uniform part l s = .ok ((), s) := by
  cases l with
  | nil => rfl
  | cons =>
    rw [uniform, List.all_eq_true.mpr h]
    rfl

/-- A settled literal may be written in every order. -/
theorem Typed.orderless (hn : n.Typed) (hsettled : n.Settled) : n.Orderless := by
  cases n with
  | arrayLit elements type =>
    intro l hl
    have hcovers : ∀ e ∈ l, Ty.Covers (.array e.typeOf) type := fun e he =>
      hsettled _ (List.mem_map_of_mem (hl.subset he))
    cases l with
    | nil =>
      obtain ⟨-, rfl⟩ := hn
      rw [← hl.nil_eq]
      exact ⟨_, fun s => rfl, (Ty.Covers.refl _).fitsLike⟩
    | cons first rest =>
      obtain ⟨hfirst, hrest⟩ := List.forall_mem_cons.mp hcovers
      have halike : Alike (first :: rest) := fun e he => (hrest e he).equivalent hfirst
      refine ⟨.array first.typeOf, fun s => ?_, hfirst.fitsLike⟩
      change Except.bind (uniform .elements (first :: rest) s) _ = _
      rw [uniform_eq halike]
      rfl
  | mapLit _ type =>
    intro l hl
    have hcovers : ∀ e ∈ l, Ty.Covers (.map e.key.typeOf e.value.typeOf) type := fun e he =>
      hsettled _ (List.mem_map_of_mem (hl.subset he))
    cases l with
    | nil =>
      obtain ⟨-, -, -, rfl⟩ := hn
      rw [← hl.nil_eq]
      exact ⟨_, fun s => rfl, (Ty.Covers.refl _).fitsLike⟩
    | cons first rest =>
      obtain ⟨hfirst, hrest⟩ := List.forall_mem_cons.mp hcovers
      have halike {e : Entry Node} (he : e ∈ rest) :=
        Bool.and_eq_true_iff.mp ((hrest e he).equivalent hfirst)
      have hkeys : Alike ((first :: rest).map (·.key)) :=
        List.forall_mem_map.mpr fun e he => (halike he).1
      have hvalues : Alike ((first :: rest).map (·.value)) :=
        List.forall_mem_map.mpr fun e he => (halike he).2
      have hdistinct : distinct (((first :: rest).map (·.key)).filterMap Analysis.keyPrint?) = true := by
        rw [distinct_iff, ((hl.map _).filterMap _).nodup_iff, ← distinct_iff]
        exact hn.2.2.1
      refine ⟨.map first.key.typeOf first.value.typeOf, fun s => ?_, hfirst.fitsLike⟩
      change Except.bind (uniform .keys ((first :: rest).map (·.key)) s) (fun r =>
        Except.bind (uniform .values ((first :: rest).map (·.value)) r.2) fun r =>
          Except.bind (Analysis.distinctKeys ((first :: rest).map (·.key)) r.2) _) = _
      rw [uniform_eq hkeys, Except.bind, uniform_eq hvalues, Except.bind, Analysis.distinctKeys, hdistinct]
      rfl
  | _ => trivial

end Node

/-- A literal is settled, as one is in whose type no empty literal's type occurs, if and only if each
member alone is accepted wherever the literal is accepted. Whatever a program uses where a type is
expected is accepted there. If the literals in it are settled, each member is accepted where the type of
the members is expected, and so is each literal with its members in another order. -/
theorem Program.literals_fit {p q : Program} (h : p.analyze = .ok q) :
    (∀ k : Node, k.PartOf q.node → (k.typeOf.isExact = true → k.Settled) ∧
      (k.Settled ↔ ∀ expected, expected.isExact = true → k.typeOf.assignable expected = true →
        ∀ t ∈ k.memberTypes, t.assignable expected = true)) ∧
    ∀ (m n : Node) (t : Ty), m.PartOf q.node → m.Uses n t →
      n.typeOf.assignable t = true ∧
        ((∀ k v, n.Holds t k v → k.Settled) →
          ∀ e u, n.Holds t e u → e.typeOf.assignable u = true ∧ e.Orderless) := by
  have htyped := wellTyped_of_analyze h
  refine ⟨fun k hk => ⟨(htyped k hk).settled_of_isExact, (htyped k hk).settled_iff⟩, ?_⟩
  intro m n t hm huses
  have hn := (htyped m hm).assignable_of_uses huses
  refine ⟨hn, fun hsettled e u he => ⟨he.assignable hn hsettled, ?_⟩⟩
  exact (htyped e (he.partOf.trans (huses.partOf.trans hm))).orderless (hsettled e u he)

/-! ### Tables of integers

A table is declared with its rows as an array of arrays of integers. -/

namespace Table

def source (rows : List (List Node)) : Program :=
  ⟨[], some [.varDecl (.array (.array (.named "slice"))) "x"
    (.arrayLit (some (rows.map fun row => .arrayLit (some row) .nothing)) .nothing) false false none]⟩

def literal (rows : List Node) : Node := .arrayLit (some rows) (Node.arrayType rows)

def declaration (rows : List Node) : Node :=
  .varDecl (.array (.array .int)) "x" (literal rows) false false
    (some ⟨Library.firstUserId, "x", false, .array (.array .int)⟩)

def analyzed (rows : List Node) : Program := ⟨[], some [declaration rows]⟩

theorem declaration_partOf (rows : List Node) : (declaration rows).PartOf (analyzed rows).node :=
  .child (.head _) (.refl _)

theorem declaration_uses (rows : List Node) :
    (declaration rows).Uses (literal rows) (.array (.array .int)) := ⟨rfl, by simp [literal], rfl⟩

def rows : List Node := [.arrayLit (some [.intLit 1]) (.array .int), .arrayLit (some []) .emptyArray]

theorem settled_of_holds_rows {k : Node} {v : Ty} (h : (literal rows).Holds (.array (.array .int)) k v) :
    k.Settled := by
  have hexact {t : Ty} (ht : t.isExact) : Ty.Covers t t := .of_isExact (Ty.equivalent_refl t) ht
  have hinner : Node.AllParts Node.Settled (.arrayLit (some [.intLit 1]) (.array .int)) :=
    .of_children (List.forall_mem_singleton.mpr (hexact rfl)) (List.forall_mem_singleton.mpr (.of_leaf nofun rfl))
  have hempty : Node.AllParts Node.Settled (.arrayLit (some []) .emptyArray) := .of_leaf nofun rfl
  have hrows : (literal rows).Settled := by
    refine forall_mem_two (hexact rfl) ?_
    exact .of_isExact rfl rfl
  have hchildren : ∀ row ∈ rows, Node.AllParts Node.Settled row :=
    forall_mem_two hinner hempty
  exact Node.AllParts.of_children hrows hchildren k h.partOf

theorem literals_fit_rows : (source [[.intLit 1], []]).analyze = .ok (analyzed rows) ∧
    (literal rows).Settled ∧ (literal rows).typeOf.assignable (.array (.array .int)) = true ∧
      ∀ e u, (literal rows).Holds (.array (.array .int)) e u → e.typeOf.assignable u = true ∧ e.Orderless := by
  have hanalyze : (source [[.intLit 1], []]).analyze = .ok (analyzed rows) := rfl
  obtain ⟨hsettled, hfit⟩ := Program.literals_fit hanalyze
  have hpart : (literal rows).PartOf (analyzed rows).node :=
    (declaration_uses rows).partOf.trans (declaration_partOf rows)
  obtain ⟨hassignable, hmembers⟩ := hfit _ _ _ (declaration_partOf rows) (declaration_uses rows)
  exact ⟨hanalyze, (hsettled _ hpart).1 rfl, hassignable, hmembers fun k v => settled_of_holds_rows⟩

def mixed : List Node :=
  [.arrayLit (some []) .emptyArray, .arrayLit (some [.intLit 1]) (.array .int),
    .arrayLit (some [.stringLit "a"]) (.array .string)]

/-- A row of strings is accepted in a table of integers when the first row is empty. It is not accepted
when the empty row stands elsewhere. -/
theorem analyze_accepts_mixed : (source [[], [.intLit 1], [.stringLit "a"]]).analyze = .ok (analyzed mixed) ∧
    (∃ (m n e : Node) (t u : Ty), m.PartOf (analyzed mixed).node ∧ m.Uses n t ∧ n.Holds t e u ∧
      e.typeOf.assignable u = false) ∧
    (source [[.intLit 1], [], [.stringLit "a"]]).analyze = .error (.semantic (.notUniform .elements)) :=
  ⟨rfl, ⟨declaration mixed, literal mixed, _, _, _, declaration_partOf mixed, declaration_uses mixed,
    .element .self (.tail _ (.tail _ (.head _))), rfl⟩, rfl⟩

end Table

end LemonScript
