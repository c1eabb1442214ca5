import LemonScript.Proofs.Typing.Scoped
/-!
# Where the parts of a program stand

All parts of a well-formed program are well formed at the places where they stand. What is declared
somewhere is not the name of a function that can be used there.
-/

namespace LemonScript

open List (forall_mem_cons forall_mem_nil forall_mem_singleton subset_append_left
  subset_append_right)

variable {m : Node}

namespace Scoped

variable {Γ : Site}

/-! ### Expressions -/

variable {n : Node}

theorem Expression.partOf (hm : m.PartOf n) (h : Expression Γ n) : Expression Γ m := by
  induction hm with
  | refl => exact h
  | child hc _ ih => exact ih (h.children _ hc)

theorem Update.children (h : Update Γ n) : ∀ c ∈ n.children, Expression Γ c := by
  unfold Update at h
  split at h
  · exact forall_mem_two h.1 h.2.2
  · exact forall_mem_singleton.mpr h.1
  · exact h.elim

/-! ### Statements -/

/-- Declarations at a place: all are different, and none is the name of a function that can be used
there. -/
structure New (Γ : Site) (ids : List Int) : Prop where
  nodup : ids.Nodup
  unused : ∀ id ∈ ids, id ∉ Γ.funs

namespace New

variable {Δ : Site} {id : Int} {ids ids' : List Int}

theorem nil (Γ : Site) : New Γ [] := ⟨.nil, forall_mem_nil _⟩

theorem left (h : New Γ (ids ++ ids')) : New Γ ids :=
  ⟨h.nodup.of_append_left, fun id hid => h.unused id (List.mem_append_left _ hid)⟩

theorem right (h : New Γ (ids ++ ids')) : New Γ ids' :=
  ⟨h.nodup.of_append_right, fun id hid => h.unused id (List.mem_append_right _ hid)⟩

theorem of_funs (h : New Γ ids) (hfuns : Δ.funs = Γ.funs) : New Δ ids := ⟨h.nodup, hfuns ▸ h.unused⟩

theorem declareFunction (h : New Γ (id :: ids)) : New (Γ.declareFunction id) ids := by
  obtain ⟨hid, hids⟩ := List.nodup_cons.mp h.nodup
  refine ⟨hids, fun x hx hmem => ?_⟩
  rcases hmem with rfl | hmem
  · exact hid hx
  · exact h.unused x (.tail _ hx) hmem

theorem behind (h : New Γ (n.declared ++ ids)) : New (Γ.behind n) ids := by
  unfold Site.behind
  split
  · exact h.right.of_funs rfl
  · exact (declareFunction (h.of_funs rfl)).right
  · exact h.right

end New

/-- A statement that is well formed where it stands. -/
structure Placed (Γ : Site) (n : Node) : Prop where
  inScope : Statement Γ n
  new : New Γ n.declared

/-- A part of a statement that declares the given entities: it stands at some place, unless it is empty. -/
def Beneath (ids : List Int) (c : Node) : Prop := c = .missing ∨ ∃ Δ, Placed Δ c ∧ c.declared ⊆ ids

section Children

variable {ids ids' : List Int} {n : Node}
variable {c : Node}

theorem Beneath.mono (h : Beneath ids c) (hsub : ids ⊆ ids') : Beneath ids' c :=
  h.imp_right fun ⟨Δ, hc, hids⟩ => ⟨Δ, hc, List.Subset.trans hids hsub⟩

theorem beneath_of_simple (h : Update Γ c ∨ Expression Γ c) : Beneath ids c := by
  obtain ⟨hstatement, hdeclared, -⟩ := statement_of_simple h
  exact .inr ⟨Γ, ⟨hstatement, hdeclared ▸ .nil Γ⟩, hdeclared ▸ List.nil_subset _⟩

theorem beneath_of_statements (h : Statements Γ ns) (hnew : New Γ (Node.declaredInAll ns)) :
    ∀ c ∈ ns, Beneath (Node.declaredInAll ns) c := by
  induction ns generalizing Γ with
  | nil => exact forall_mem_nil _
  | cons n ns ih =>
    refine forall_mem_cons.mpr ⟨.inr ⟨Γ, ⟨h.1, hnew.left⟩, subset_append_left _ _⟩, fun c hc => ?_⟩
    exact (ih h.2 hnew.behind c hc).mono (subset_append_right _ _)

theorem beneath_of_block {ns : Option (List Node)} (h : Block Γ ns) (hnew : New Γ (Node.declaredIn ns)) :
    ∀ c ∈ ns.getD [], Beneath (Node.declaredIn ns) c := by
  cases ns with
  | none => exact forall_mem_nil _
  | some ns => exact beneath_of_statements h hnew

theorem beneath_of_arms {arms : List (Arm Node)} (h : Arms Γ arms) (hnew : New Γ (Node.declaredInArms arms)) :
    ∀ c ∈ arms.flatMap Arm.children, Beneath (Node.declaredInArms arms) c := by
  induction arms with
  | nil => exact forall_mem_nil _
  | cons _ _ ih =>
    obtain ⟨hguard, hbody, hrest⟩ := h
    rw [List.flatMap_cons, List.forall_mem_append]
    refine ⟨forall_mem_cons.mpr ⟨beneath_of_simple (.inr hguard), fun c hc => ?_⟩, fun c hc => ?_⟩
    · exact (beneath_of_block hbody hnew.left c hc).mono (subset_append_left _ _)
    · exact (ih hrest hnew.right c hc).mono (subset_append_right _ _)

theorem Placed.children (h : Placed Γ n) : ∀ c ∈ n.children, Beneath n.declared c := by
  obtain ⟨hn, hnew⟩ := h
  have hsimple {Δ : Site} {c : Node} (hc : Expression Δ c) : Beneath n.declared c := beneath_of_simple (.inr hc)
  cases n with
  | varDecl =>
    exact forall_mem_singleton.mpr (hn.1.elim .inl hsimple)
  | assign => exact forall_mem_two (hsimple hn.1) (hsimple hn.2)
  | funDecl _ _ _ params body =>
    obtain ⟨f, rfl, -, hbody⟩ := hn
    have hinner : New (Γ.declareFunction f.id) (parameterIds params ++ Node.declaredIn body) := hnew.declareFunction
    intro c hc
    refine (beneath_of_block hbody (hinner.right.of_funs rfl) c hc).mono ?_
    exact List.Subset.trans (subset_append_right _ _) (subset_append_right _ _)
  | ifElse =>
    refine List.forall_mem_append.mpr ⟨fun c hc => ?_, fun c hc => ?_⟩
    · exact (beneath_of_arms hn.1 hnew.left c hc).mono (subset_append_left _ _)
    · exact (beneath_of_block hn.2 hnew.right c hc).mono (subset_append_right _ _)
  | whileLoop =>
    exact forall_mem_cons.mpr ⟨hsimple hn.1, beneath_of_block hn.2 (hnew.of_funs rfl)⟩
  | forLoop =>
    obtain ⟨v, rfl, hinit, hcondition, hstep, hbody⟩ := hn
    refine forall_mem_cons.mpr ⟨hsimple hinit, forall_mem_cons.mpr ⟨hsimple hcondition,
      forall_mem_cons.mpr ⟨beneath_of_simple (.inl hstep), fun c hc => ?_⟩⟩⟩
    exact (beneath_of_block hbody (hnew.right.of_funs rfl) c hc).mono (subset_append_right _ _)
  | switch =>
    refine forall_mem_cons.mpr ⟨hsimple hn.1, List.forall_mem_append.mpr ⟨fun c hc => ?_, fun c hc => ?_⟩⟩
    · exact (beneath_of_arms hn.2.1 hnew.left c hc).mono (subset_append_left _ _)
    · exact (beneath_of_block hn.2.2 hnew.right c hc).mono (subset_append_right _ _)
  | giveBack => exact forall_mem_singleton.mpr (hsimple hn.2)
  | giveBackNothing | chop | next => exact forall_mem_nil _
  | _ =>
    intro c hc
    exact hn.elim (fun h => hsimple (h.children c hc)) fun h => hsimple (h.children c hc)

theorem Placed.partOf (hm : m.PartOf n) (h : Placed Γ n) : Beneath n.declared m := by
  induction hm generalizing Γ with
  | refl => exact .inr ⟨Γ, h, List.Subset.refl _⟩
  | child hc hm ih =>
    rcases h.children _ hc with rfl | ⟨Δ, hchild, hsub⟩
    · exact .inl hm.of_missing
    · exact (ih hchild).mono hsub

end Children

end Scoped

theorem Program.WellFormed.beneath {p : Program} (h : p.WellFormed) (hm : m.PartOf p.node) :
    m = p.node ∨ Scoped.Beneath (Node.declaredIn p.statements) m := by
  cases hm with
  | refl => exact .inl rfl
  | child hc hm =>
    have hnew : Scoped.New .top (Node.declaredIn p.statements) := ⟨h.nodup, fun _ _ => id⟩
    rcases Scoped.beneath_of_block h.inScope hnew _ hc with rfl | ⟨Δ, hplaced, hsub⟩
    · exact .inr (.inl hm.of_missing)
    · exact .inr ((hplaced.partOf hm).mono hsub)

end LemonScript
