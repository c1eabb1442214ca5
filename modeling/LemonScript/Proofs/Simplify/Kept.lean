import LemonScript.Proofs.Simplify.Total
/-!
# What simplification keeps

A property of trees is kept by simplification if it is kept where a statement has no other one in it, and if
it is a property of the parts of all other statements. These are taken apart, and what is left of them is put
together again or written out.
-/

namespace LemonScript

open List (forall_mem_append forall_mem_cons forall_mem_nil forall_mem_singleton)

namespace Simplify

variable {n : Node}

theorem put_eq_mapChildren (id value : Int) (h : ∀ v, n ≠ .var v) :
    put id value n = n.mapChildren (put id value) := by
  cases n with
  | var v => exact (h v rfl).elim
  | call | arrayLit => simp only [put, Node.mapChildren, putOptional_eq_map]
  | mapLit => simp only [put, Node.mapChildren, putEntries_eq_map]
  | _ => simp only [put, Node.mapChildren]

/-- A statement with other ones in it, and the same statement with other parts. -/
inductive Rebuilt : Node → Node → Prop
  | funDecl {name isStatic result params body body' entity} :
    Rebuilt (.funDecl name isStatic result params body entity) (.funDecl name isStatic result params body' entity)
  | ifElse {cases cases' otherwise otherwise'} (h : cases' ≠ []) :
    Rebuilt (.ifElse cases otherwise) (.ifElse cases' otherwise')
  | whileLoop {condition condition' body body'} :
    Rebuilt (.whileLoop condition body) (.whileLoop condition' body')
  | forLoop {name init init' condition condition' step step' body body' entity} :
    Rebuilt (.forLoop name init condition step body entity) (.forLoop name init' condition' step' body' entity)
  | switch {scrutinee scrutinee' cases cases' default default'} :
    Rebuilt (.switch scrutinee cases default) (.switch scrutinee' cases' default')

/-- A property that simplification keeps. -/
structure Kept (P : Node → Prop) : Prop where
  simpler {n : Node} : P n → P (simpler n)
  plain {n : Node} : P n → ∀ m ∈ (plain n).getD [], P m
  put {name : String} {init condition step : Node} {body : Option (List Node)} {v : Variable} :
    P (.forLoop name init condition step body (some v)) → ∀ (value : Int) {n : Node}, P n → P (put v.id value n)
  part {n : Node} : isPlain n = false → P n → ∀ c ∈ n.children, P c
  whole {n n' : Node} : Rebuilt n n' → P n → (∀ c ∈ n'.children, P c) → P n'

namespace Kept

variable {P : Node → Prop} {o : SimplifyOptions}
variable {body : Option (List Node)} {arms : List (Arm Node)}

theorem copies {id : Int} {body : List Node} (hP : Kept P)
    (hput : ∀ (value : Int) {n : Node}, P n → P (Simplify.put id value n)) (h : ∀ n ∈ body, P n)
    (values : List Int) : ∀ m ∈ copies id body values, P m := by
  have hcopy (value : Int) : ∀ m ∈ copy id value body, P m := by
    induction body with
    | nil => exact forall_mem_nil _
    | cons n ns ih =>
      obtain ⟨hn, hns⟩ := forall_mem_cons.mp h
      exact forall_mem_append.mpr ⟨hP.plain (hput value hn), ih hns⟩
  induction values with
  | nil => exact forall_mem_nil _
  | cons value _ ih => exact forall_mem_append.mpr ⟨hcopy value, ih⟩

abbrev Stays (P : Node → Prop) (o : SimplifyOptions) (n : Node) : Prop :=
  ∀ m ∈ (simplerStatement o n).getD [], P m

theorem stays_block (h : ∀ n ∈ body.getD [], Stays P o n) :
    ∀ m ∈ (simplerBlock o body).getD [], P m := by
  have hstatements (ns : List Node) (h : ∀ n ∈ ns, Stays P o n) : ∀ m ∈ simplerStatements o ns, P m := by
    induction ns with
    | nil => exact forall_mem_nil _
    | cons n ns ih =>
      rw [forall_mem_cons] at h
      exact forall_mem_append.mpr ⟨h.1, ih h.2⟩
  cases body with
  | none => exact forall_mem_nil _
  | some ns => exact hstatements ns h

theorem stays_chain (hP : Kept P) (h : ∀ n ∈ arms.flatMap Arm.children, P n ∧ Stays P o n) :
    (∀ m ∈ (simplerChain o arms).arms.flatMap Arm.children, P m) ∧
      ∀ rest ∈ (simplerChain o arms).always, ∀ m ∈ rest.getD [], P m := by
  induction arms with
  | nil => exact ⟨forall_mem_nil _, by simp [simplerChain]⟩
  | cons arm rest ih =>
    obtain ⟨guard, body⟩ := arm
    obtain ⟨hguard, hbody, hrest⟩ := Node.forall_mem_armChildren.mp h
    have hbody := stays_block fun n hn => (hbody n hn).2
    replace ih := ih hrest
    unfold simplerChain
    split
    · refine ⟨forall_mem_nil _, fun rest hrest => ?_⟩
      cases Option.mem_def.mp hrest
      exact hbody
    split
    · exact ih
    · exact ⟨Node.forall_mem_armChildren.mpr ⟨hP.simpler hguard.1, hbody, ih.1⟩, ih.2⟩

theorem stays_cases (hP : Kept P) (h : ∀ n ∈ arms.flatMap Arm.children, P n ∧ Stays P o n) :
    ∀ m ∈ (simplerCases o arms).flatMap Arm.children, P m := by
  induction arms with
  | nil => exact forall_mem_nil _
  | cons arm rest ih =>
    obtain ⟨guard, body⟩ := arm
    obtain ⟨hguard, hbody, hrest⟩ := Node.forall_mem_armChildren.mp h
    exact Node.forall_mem_armChildren.mpr ⟨hP.simpler hguard.1, stays_block fun n hn => (hbody n hn).2, ih hrest⟩

/-- What becomes of a statement with the property has it. -/
theorem statement (hP : Kept P) (h : P n) : Stays P o n := by
  induction n with
  | h n ih =>
  cases hplain : isPlain n with
  | true =>
    rw [Stays, simplerStatement_of_isPlain o hplain]
    exact hP.plain h
  | false =>
  have hpart := hP.part hplain h
  have hready : ∀ c ∈ n.children, P c ∧ Stays P o c := fun c hc => ⟨hpart c hc, ih c hc (hpart c hc)⟩
  unfold Stays
  cases n with
  | funDecl =>
    exact forall_mem_singleton.mpr (hP.whole .funDecl h (stays_block fun n hn => (hready n hn).2))
  | ifElse cases otherwise =>
    obtain ⟨hcases, hotherwise⟩ := forall_mem_append.mp hready
    obtain ⟨harms, halways⟩ := hP.stays_chain hcases
    have hotherwise := stays_block fun n hn => (hotherwise n hn).2
    have hrest : ∀ m ∈ ((simplerChain o cases).always.getD (simplerBlock o otherwise)).getD [], P m := by
      cases hchain : (simplerChain o cases).always with
      | none => exact hotherwise
      | some rest => exact halways rest hchain
    simp only [simplerStatement]
    split
    · exact hrest
    · next hne =>
      exact forall_mem_singleton.mpr (hP.whole (.ifElse fun hnil => hne (by rw [hnil]; rfl)) h
        (forall_mem_append.mpr ⟨harms, hrest⟩))
  | whileLoop =>
    obtain ⟨hcondition, hbody⟩ := forall_mem_cons.mp hready
    simp only [simplerStatement]
    split
    · exact forall_mem_nil _
    · exact forall_mem_singleton.mpr (hP.whole .whileLoop h (forall_mem_cons.mpr
        ⟨hP.simpler hcondition.1, stays_block fun n hn => (hbody n hn).2⟩))
  | forLoop =>
    simp only [Node.children, forall_mem_cons] at hready
    obtain ⟨hinit, hcondition, hstep, hbody⟩ := hready
    have hbody := stays_block fun n hn => (hbody n hn).2
    simp only [simplerStatement, simplerFor]
    split
    · next hunrolling =>
      obtain ⟨v, i, rfl, -, rfl, -⟩ := of_unrolling? hunrolling
      exact hP.copies (hP.put h) hbody _
    · refine forall_mem_singleton.mpr (hP.whole .forLoop h ?_)
      simp only [Node.children, forall_mem_cons]
      exact ⟨hP.simpler hinit.1, hP.simpler hcondition.1, hP.simpler hstep.1, hbody⟩
  | switch =>
    obtain ⟨hscrutinee, hrest⟩ := forall_mem_cons.mp hready
    obtain ⟨hcases, hdefault⟩ := forall_mem_append.mp hrest
    refine forall_mem_singleton.mpr (hP.whole .switch h (forall_mem_cons.mpr
      ⟨hP.simpler hscrutinee.1, forall_mem_append.mpr ⟨hP.stays_cases hcases, ?_⟩⟩))
    exact stays_block fun n hn => (hdefault n hn).2
  | _ => cases hplain

theorem block (hP : Kept P) (h : ∀ n ∈ body.getD [], P n) :
    ∀ m ∈ (simplerBlock o body).getD [], P m :=
  stays_block fun n hn => hP.statement (h n hn)

end Kept

end Simplify

end LemonScript
