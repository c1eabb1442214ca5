import LemonScript.Proofs.Simplify.Kept
/-!
# Simplification keeps trees well formed

What was usable stays usable: a block that takes the place of its `if` is at the same place, and in a
copy of a loop body a literal stands for the loop variable, so its declaration can go. No entity is
declared that was not declared before, and none is declared twice.
-/

namespace LemonScript

open Node (declaredIn declaredInAll declaredInArms)

namespace Simplify

variable {Γ : Site}

/-! ### Expressions -/

variable {n init condition step : Node} {id value : Int} {v : Variable} {body : List Node}
  {o : SimplifyOptions}
variable {m : Node} {entity : Option Variable} {name : String}

theorem scoped_combine {left right : Node} {op : BinaryOp} (type : Ty) (hop : op.IsInfix)
    (hleft : Scoped.Expression Γ left) (hright : Scoped.Expression Γ right) :
    Scoped.Expression Γ (combine left op right type) := by
  have hcombined := combined_combine left op right type
  generalize combine left op right type = n at hcombined ⊢
  cases hcombined with
  | int | float | string | bool => trivial
  | left => exact hleft
  | right => exact hright
  | negated => exact ⟨trivial, hright⟩
  | kept => exact ⟨hop, hleft, hright⟩

theorem scoped_combineUnary {op : UnaryOp} {operand : Node} (leading : Bool) (type : Ty)
    (hop : op.IsSign) (hoperand : Scoped.Expression Γ operand) :
    Scoped.Expression Γ (combineUnary op operand leading type) := by
  have hcombined := combinedUnary_combineUnary op operand leading type
  generalize combineUnary op operand leading type = n at hcombined ⊢
  cases hcombined with
  | int | float | bool => trivial
  | kept => exact ⟨hop, hoperand⟩

theorem scoped_simpler (h : Scoped.Expression Γ n) : Scoped.Expression Γ (simpler n) := by
  induction n with
  | h n ih =>
  have hroot := (Scoped.expression_iff.mp h).1
  replace ih := fun c hc => ih c hc (h.children c hc)
  cases n with
  | binary left op right type =>
    have hcombine := scoped_combine type h.1 (ih left (.head _)) (ih right (.tail _ (.head _)))
    cases op <;> first | exact absurd hroot id | exact hcombine
  | unary op operand leading type => exact scoped_combineUnary leading type h.1 (ih operand (.head _))
  | call | arrayLit =>
    rw [simpler, simplerOptional_eq_map]
    exact Scoped.expression_mapChildren hroot trivial ih
  | mapLit =>
    rw [simpler, simplerEntries_eq_map]
    exact Scoped.expression_mapChildren hroot trivial ih
  | member | property => exact Scoped.expression_mapChildren hroot hroot ih
  | _ => exact h

theorem scoped_update (h : Scoped.Update Γ n) : Scoped.Update Γ (simpler n) := by
  unfold Scoped.Update at h
  split at h
  · next v op right type =>
    have hright := scoped_simpler h.2.2
    obtain ⟨hv, hop, -⟩ := h
    cases op <;> first | exact absurd hop id | exact ⟨hv, hop, hright⟩
  · next op v leading type =>
    obtain ⟨hv, hop⟩ := h
    cases op <;> first | exact absurd hop id | exact ⟨hv, hop⟩
  · exact h.elim

/-! ### A literal for the loop variable -/

/-- Where a literal stands for a variable, its declaration is not needed. -/
theorem scoped_put (h : Scoped.Expression (Γ.declare id) n) : Scoped.Expression Γ (put id value n) := by
  induction n with
  | h n ih =>
  have hroot := (Scoped.expression_iff.mp h).1
  cases n with
  | var v =>
    rw [put]
    split
    · trivial
    · next hne =>
      rcases hroot with hlibrary | rfl | hvisible
      · exact .inl hlibrary
      · simp at hne
      · exact .inr hvisible
  | _ =>
    rw [put_eq_mapChildren id value (by simp)]
    exact Scoped.expression_mapChildren hroot hroot fun c hc => ih c hc (h.children c hc)

/-! ### Statements that contain no other one -/

/-- Statements that may stand for a statement: they are well formed at its place, what was declared
behind it still is, and they declare nothing new. -/
structure Replaces (Γ : Site) (n : Node) (l : List Node) : Prop where
  inScope : Scoped.Statements Γ l
  behind : (Γ.behind n).Within (Γ.behindAll l)
  declared : (declaredInAll l).Sublist n.declared

theorem replaces_single (hm : Scoped.Statement Γ m) (hbehind : Γ.behind m = Γ.behind n)
    (hdeclared : m.declared.Sublist n.declared) : Replaces Γ n [m] := by
  refine ⟨⟨hm, trivial⟩, ?_, ?_⟩
  · rw [← hbehind]
    exact .refl _
  · simpa [declaredInAll] using hdeclared

theorem replaces_assign {target source : Node} (hn : Γ.behind n = Γ)
    (htarget : Scoped.Expression Γ target) (hsource : Scoped.Expression Γ source) :
    Replaces Γ n ((assign target source).getD []) := by
  unfold assign
  split
  · exact ⟨trivial, by rw [hn]; exact .refl Γ, List.nil_sublist _⟩
  · exact replaces_single ⟨htarget, hsource⟩ hn.symm (List.nil_sublist _)

theorem replaces_simple (hn : Scoped.Update Γ n ∨ Scoped.Expression Γ n)
    (hm : Scoped.Update Γ m ∨ Scoped.Expression Γ m) : Replaces Γ n [m] := by
  obtain ⟨-, -, hbehind⟩ := Scoped.statement_of_simple hn
  obtain ⟨hstatement, hdeclared, hbehind'⟩ := Scoped.statement_of_simple hm
  refine replaces_single hstatement ((hbehind' Γ).trans (hbehind Γ).symm) ?_
  rw [hdeclared]
  exact List.nil_sublist _

theorem replaces_plain (h : Scoped.Statement Γ n) (hplain : isPlain n) :
    Replaces Γ n ((plain n).getD []) := by
  cases n with
  | varDecl _ _ _ _ _ entity =>
    refine replaces_single ⟨?_, h.2⟩ ?_ (List.Sublist.refl _)
    · rcases h.1 with rfl | hinit
      · exact .inl rfl
      · exact .inr (scoped_simpler hinit)
    · cases entity <;> rfl
  | assign => exact replaces_assign rfl (scoped_simpler h.1) (scoped_simpler h.2)
  | giveBack =>
    exact replaces_single ⟨h.1, scoped_simpler h.2⟩ rfl (List.Sublist.refl _)
  | giveBackNothing | chop | next => exact replaces_single h rfl (List.Sublist.refl _)
  | funDecl | ifElse | whileLoop | forLoop | switch => simp [isPlain] at hplain
  | binary left op right type =>
    rcases h with h | h
    · cases left with
      | var v =>
        have hv : Scoped.Expression Γ (.var v) := h.1
        have hright := scoped_simpler h.2.2
        have hadd := scoped_combine type (show BinaryOp.add.IsInfix from trivial) hv hright
        have hsub := scoped_combine type (show BinaryOp.sub.IsInfix from trivial) hv hright
        have hop := h.2.1
        cases op <;> first
          | exact absurd hop id
          | exact replaces_assign rfl h.1 hadd
          | exact replaces_assign rfl h.1 hsub
      | _ => exact h.elim
    · have hsimple := replaces_simple (.inr h) (.inr (scoped_simpler h))
      have hop := h.1
      cases op <;> first | exact absurd hop id | exact hsimple
  | _ =>
    rcases h with h | h
    · exact replaces_simple (.inl h) (.inl (scoped_update h))
    · exact replaces_simple (.inr h) (.inr (scoped_simpler h))

/-! ### Copies of loop bodies -/

/-- A statement of a loop body that can be copied is well formed in front of the loop, once a literal
stands for the loop variable. -/
structure Copied (Γ : Site) (id value : Int) (n : Node) : Prop where
  substitute_eq : substitute id value n = .ok (put id value n)
  inScope : Scoped.Statement Γ (put id value n)
  isPlain : isPlain (put id value n) = true
  behind : ∀ Δ : Site, Δ.behind (put id value n) = Δ
  declared : (put id value n).declared = []

theorem isPlain_of_simple (h : Scoped.Update Γ n ∨ Scoped.Expression Γ n) : isPlain n := by
  cases n <;> first | rfl | simp [Scoped.Update, Scoped.Expression] at h

theorem copied_of_simple (heq : substitute id value n = .ok (put id value n))
    (h : Scoped.Update Γ (put id value n) ∨ Scoped.Expression Γ (put id value n)) :
    Copied Γ id value n := by
  obtain ⟨hstatement, hdeclared, hbehind⟩ := Scoped.statement_of_simple h
  exact ⟨heq, hstatement, isPlain_of_simple h, hbehind, hdeclared⟩

theorem copied_of_update (h : Scoped.Update (Γ.declare v.id) n) (hcopy : copyable (some v) n) :
    Copied Γ v.id value n := by
  have hkept : ∀ w : Variable, isLoopVariable (some v) (.var w) = false → (Γ.declare v.id).SeesVariable w.id →
      put v.id value (.var w) = .var w ∧ Γ.SeesVariable w.id := by
    intro w hw hsees
    have hne : w.id ≠ v.id := by
      intro heq
      simp [isLoopVariable, heq] at hw
    refine ⟨by simp [put, hne], ?_⟩
    rcases hsees with hlibrary | heq | hvisible
    · exact .inl hlibrary
    · exact absurd heq hne
    · exact .inr hvisible
  unfold Scoped.Update at h
  split at h
  · next w op right type =>
    obtain ⟨hw, hop, hright⟩ := h
    have hloop : isLoopVariable (some v) (.var w) = false := by
      cases op <;> first | exact absurd hop id | simpa [copyable] using hcopy
    obtain ⟨hput, hsees⟩ := hkept w hloop hw
    refine copied_of_simple ?_ (.inl ?_)
    · simp only [substitute, put, substitute_eq hright]
      rfl
    · rw [put, hput]
      exact ⟨hsees, hop, scoped_put hright⟩
  · next op w leading type =>
    obtain ⟨hw, hop⟩ := h
    have hloop : isLoopVariable (some v) (.var w) = false := by
      cases op <;> first | exact absurd hop id | simpa [copyable] using hcopy
    obtain ⟨hput, hsees⟩ := hkept w hloop hw
    refine copied_of_simple ?_ (.inl ?_)
    · simp only [substitute, put]
      rfl
    · rw [put, hput]
      exact ⟨hsees, hop⟩
  · exact h.elim

theorem copied_of_copyable (h : Scoped.Statement (Γ.declare v.id).loop n)
    (hcopy : copyable (some v) n) : Copied Γ v.id value n := by
  have hunder := (Γ.declare v.id).loop_under
  cases n with
  | assign =>
    have htarget := h.1.mono hunder
    have hsource := h.2.mono hunder
    refine ⟨?_, ⟨scoped_put htarget, scoped_put hsource⟩, rfl, fun _ => rfl, rfl⟩
    simp only [substitute, put, substitute_eq htarget, substitute_eq hsource]
    rfl
  | giveBack =>
    have hvalue := h.2.mono hunder
    refine ⟨?_, ⟨h.1, scoped_put hvalue⟩, rfl, fun _ => rfl, rfl⟩
    simp only [substitute, put, substitute_eq hvalue]
    rfl
  | giveBackNothing => exact ⟨rfl, h, rfl, fun _ => rfl, rfl⟩
  | varDecl | funDecl | ifElse | whileLoop | forLoop | switch | chop | next =>
    simp [copyable] at hcopy
  | _ =>
    rcases h with h | h
    · exact copied_of_update (h.mono hunder) hcopy
    · exact copied_of_simple (substitute_eq (h.mono hunder)) (.inr (scoped_put (h.mono hunder)))

theorem behind_of_copyable (h : copyable entity n) (Γ : Site) : Γ.behind n = Γ := by
  cases n <;> first | rfl | simp [copyable] at h

theorem scoped_of_copyable (h : Scoped.Statements Γ body) (hcopy : body.all (copyable entity)) :
    ∀ n ∈ body, Scoped.Statement Γ n := by
  induction body with
  | nil => simp
  | cons n ns ih =>
    rw [List.all_cons, Bool.and_eq_true] at hcopy
    obtain ⟨hn, hns⟩ := h
    rw [behind_of_copyable hcopy.1] at hns
    exact List.forall_mem_cons.mpr ⟨hn, ih hns hcopy.2⟩

theorem unrolledBody_eq (h : ∀ n ∈ body, Copied Γ id value n) :
    unrolledBody id value body = .ok (copy id value body) := by
  induction body with
  | nil => rfl
  | cons n ns ih =>
    obtain ⟨hn, hns⟩ := List.forall_mem_cons.mp h
    simp only [unrolledBody, copy, hn.substitute_eq, plainStatement_eq hn.inScope hn.isPlain, ih hns,
      bind, Except.bind]
    rfl

theorem scoped_copy (h : ∀ n ∈ body, Copied Γ id value n) :
    Scoped.Statements Γ (copy id value body) ∧ declaredInAll (copy id value body) = [] := by
  induction body with
  | nil => exact ⟨trivial, rfl⟩
  | cons n ns ih =>
    obtain ⟨hn, hns⟩ := List.forall_mem_cons.mp h
    obtain ⟨hscoped, hdeclared⟩ := ih hns
    have hfirst := replaces_plain hn.inScope hn.isPlain
    have hnone := List.sublist_nil.mp (hn.declared ▸ hfirst.declared)
    refine ⟨Scoped.statements_append.mpr ⟨hfirst.inScope, hscoped.mono (Γ.within_behindAll _)⟩, ?_⟩
    rw [copy, Node.declaredInAll_append, hnone, hdeclared]
    rfl

theorem unrolled_eq (h : ∀ value, ∀ n ∈ body, Copied Γ id value n) (values : List Int) :
    unrolled id body values = .ok (copies id body values) := by
  induction values with
  | nil => rfl
  | cons value _ ih =>
    simp only [unrolled, copies, unrolledBody_eq (h value), ih]
    rfl

theorem scoped_copies (h : ∀ value, ∀ n ∈ body, Copied Γ id value n) (values : List Int) :
    Scoped.Statements Γ (copies id body values) ∧ declaredInAll (copies id body values) = [] := by
  induction values with
  | nil => exact ⟨trivial, rfl⟩
  | cons value _ ih =>
    obtain ⟨hscoped, hdeclared⟩ := scoped_copy (h value)
    refine ⟨Scoped.statements_append.mpr ⟨hscoped, ih.1.mono (Γ.within_behindAll _)⟩, ?_⟩
    rw [copies, Node.declaredInAll_append, hdeclared, ih.2]
    rfl

theorem copied_of_unrolling? {body : Option (List Node)} {values : List Int}
    (hbody : Scoped.Block (Γ.declare v.id).loop body)
    (h : unrolling? o init condition step body (some v) = some (id, values)) :
    ∀ value, ∀ n ∈ body.getD [], Copied Γ id value n := by
  obtain ⟨w, i, hv, -, rfl, -, -, hcopy⟩ := of_unrolling? h
  obtain rfl := Option.some.inj hv
  intro value n hn
  cases body with
  | none => simp at hn
  | some ns =>
    have hstatements : Scoped.Statements (Γ.declare v.id).loop ns := hbody
    exact copied_of_copyable (scoped_of_copyable hstatements hcopy n hn)
      (List.all_eq_true.mp hcopy n hn)

theorem finishFor_eq {body : Option (List Node)} (hbody : Scoped.Block (Γ.declare v.id).loop body) :
    finishFor o name init condition step body (some v) =
      .ok (some (simplerFor o name init condition step body (some v))) := by
  have hcopied : ∀ id values, unrolling? o init condition step body (some v) = some (id, values) →
      ∀ value, ∀ n ∈ body.getD [], Copied Γ id value n := fun _ _ => copied_of_unrolling? hbody
  unfold finishFor simplerFor
  unfold unrolling? at hcopied ⊢
  cases hi : iterations? (some v) init condition step with
  | none => rfl
  | some i =>
    simp only [hi] at hcopied ⊢
    split
    · next hcond =>
      rw [unrolled_eq (hcopied v.id i.values (by rw [if_pos hcond]))]
      rfl
    · rfl

/-! ### All statements -/

theorem replaces_simplerFor {body : Option (List Node)} (hn : Γ.behind n = Γ)
    (hinit : Scoped.Expression Γ init) (hcondition : Scoped.Expression (Γ.declare v.id) condition)
    (hstep : Scoped.Update (Γ.declare v.id) step) (hbody : Scoped.Block (Γ.declare v.id).loop body)
    (hdeclared : (v.id :: declaredIn body).Sublist n.declared) :
    Replaces Γ n (simplerFor o name init condition step body (some v)) := by
  unfold simplerFor
  split
  · next id values h =>
    obtain ⟨hscoped, hnone⟩ := scoped_copies (copied_of_unrolling? hbody h) values
    refine ⟨hscoped, ?_, ?_⟩
    · rw [hn]
      exact Γ.within_behindAll _
    · rw [hnone]
      exact List.nil_sublist _
  · exact replaces_single ⟨v, rfl, hinit, hcondition, hstep, hbody⟩ hn.symm hdeclared

theorem scoped_getD {l : Option (List Node)} (h : Scoped.Block Γ l) : Scoped.Statements Γ (l.getD []) := by
  cases l with
  | none => trivial
  | some ns => exact h

theorem declaredInAll_getD (l : Option (List Node)) : declaredInAll (l.getD []) = declaredIn l := by
  cases l <;> rfl

/-- A block with fewer declarations than before. -/
structure ReplacesBlock (Γ : Site) (before after : Option (List Node)) : Prop where
  inScope : Scoped.Block Γ after
  declared : (declaredIn after).Sublist (declaredIn before)

structure ReplacesArms (Γ : Site) (before after : List (Arm Node)) : Prop where
  inScope : Scoped.Arms Γ after
  declared : (declaredInArms after).Sublist (declaredInArms before)

/-- What is left of the conditions of an `if`, with the block that runs when none of them holds. -/
structure ReplacesChain (Γ : Site) (before : List (Arm Node)) (chain : IfChain) : Prop where
  inScope : Scoped.Arms Γ chain.arms
  always : ∀ body, chain.always = some body → Scoped.Block Γ body
  declared : ∀ rest, (declaredInArms chain.arms ++ declaredIn (chain.always.getD rest)).Sublist
    (declaredInArms before ++ declaredIn rest)

mutual

theorem replaces_statement {Γ : Site} (o : SimplifyOptions) {n : Node} (h : Scoped.Statement Γ n) :
    Replaces Γ n ((simplerStatement o n).getD []) := by
  cases n with
  | funDecl =>
    obtain ⟨f, rfl, hparams, hbody⟩ := h
    have hblock := replaces_block o hbody
    refine replaces_single ⟨f, rfl, hparams, hblock.inScope⟩ rfl ?_
    exact ((hblock.declared.append_left _).append_left _)
  | ifElse cases otherwise =>
    have hchain := replaces_chain o h.1
    have hotherwise := replaces_block o h.2
    have hrest : Scoped.Block Γ ((simplerChain o cases).always.getD (simplerBlock o otherwise)) := by
      cases halways : (simplerChain o cases).always with
      | none => exact hotherwise.inScope
      | some body => exact hchain.always body halways
    have hdeclared := (hchain.declared (simplerBlock o otherwise)).trans
      (hotherwise.declared.append_left _)
    simp only [simplerStatement]
    split
    · next hempty =>
      rw [List.isEmpty_iff.mp hempty] at hdeclared
      exact ⟨scoped_getD hrest, Γ.within_behindAll _, by rwa [declaredInAll_getD]⟩
    · exact replaces_single ⟨hchain.inScope, hrest⟩ rfl hdeclared
  | whileLoop =>
    have hblock := replaces_block o h.2
    simp only [simplerStatement]
    split
    · exact ⟨trivial, .refl Γ, List.nil_sublist _⟩
    · exact replaces_single ⟨scoped_simpler h.1, hblock.inScope⟩ rfl hblock.declared
  | forLoop =>
    obtain ⟨v, rfl, hinit, hcondition, hstep, hbody⟩ := h
    have hblock := replaces_block o hbody
    exact replaces_simplerFor rfl (scoped_simpler hinit) (scoped_simpler hcondition)
      (scoped_update hstep) hblock.inScope (hblock.declared.cons_cons _)
  | switch =>
    have hcases := replaces_cases o h.2.1
    have hdefault := replaces_block o h.2.2
    exact replaces_single ⟨scoped_simpler h.1, hcases.inScope, hdefault.inScope⟩ rfl
      (hcases.declared.append hdefault.declared)
  | _ => exact replaces_plain h rfl

theorem replaces_statements {Γ : Site} (o : SimplifyOptions) : ∀ {l : List Node}, Scoped.Statements Γ l →
    ReplacesBlock Γ (some l) (some (simplerStatements o l))
  | [], _ => ⟨trivial, List.Sublist.refl _⟩
  | n :: ns, h => by
    have hn := replaces_statement o h.1
    have hns := replaces_statements o h.2
    refine ⟨Scoped.statements_append.mpr ⟨hn.inScope, hns.inScope.mono hn.behind⟩, ?_⟩
    simp only [declaredIn, simplerStatements, Node.declaredInAll_append, declaredInAll]
    exact hn.declared.append hns.declared

theorem replaces_block {Γ : Site} (o : SimplifyOptions) : ∀ {l : Option (List Node)}, Scoped.Block Γ l →
    ReplacesBlock Γ l (simplerBlock o l)
  | none, _ => ⟨trivial, List.Sublist.refl _⟩
  | some ns, h => replaces_statements o (l := ns) h

theorem replaces_chain {Γ : Site} (o : SimplifyOptions) : ∀ {l : List (Arm Node)}, Scoped.Arms Γ l →
    ReplacesChain Γ l (simplerChain o l)
  | [], _ => ⟨trivial, by simp [simplerChain], fun _ => List.Sublist.refl _⟩
  | ⟨guard, body⟩ :: rest, h => by
    have hbody := replaces_block o h.2.1
    have hrest := replaces_chain o h.2.2
    simp only [simplerChain]
    split
    · refine ⟨trivial, ?_, fun rest => ?_⟩
      · rintro _ ⟨⟩
        exact hbody.inScope
      · simp only [declaredInArms, List.append_assoc]
        exact hbody.declared.trans (List.sublist_append_left _ _)
    split
    · refine ⟨hrest.inScope, hrest.always, fun rest' => ?_⟩
      rw [declaredInArms, List.append_assoc]
      exact (hrest.declared rest').trans (List.sublist_append_right _ _)
    · refine ⟨⟨scoped_simpler h.1, hbody.inScope, hrest.inScope⟩, hrest.always, fun rest' => ?_⟩
      rw [declaredInArms, declaredInArms, List.append_assoc, List.append_assoc]
      exact hbody.declared.append (hrest.declared rest')

theorem replaces_cases {Γ : Site} (o : SimplifyOptions) : ∀ {l : List (Arm Node)}, Scoped.Arms Γ l →
    ReplacesArms Γ l (simplerCases o l)
  | [], _ => ⟨trivial, List.Sublist.refl _⟩
  | ⟨guard, body⟩ :: rest, h => by
    have hbody := replaces_block o h.2.1
    have hrest := replaces_cases o h.2.2
    exact ⟨⟨scoped_simpler h.1, hbody.inScope, hrest.inScope⟩, hbody.declared.append hrest.declared⟩

end

/-! ### No faults -/

mutual

theorem statement_eq {Γ : Site} (o : SimplifyOptions) {n : Node} (h : Scoped.Statement Γ n) :
    statement o n = .ok (simplerStatement o n) := by
  cases n with
  | funDecl =>
    obtain ⟨f, rfl, -, hbody⟩ := h
    simp only [statement, simplerStatement, block_eq o hbody]
    rfl
  | ifElse cases =>
    simp only [statement, simplerStatement, ifChain_eq o h.1, bind, Except.bind]
    cases (simplerChain o cases).always with
    | some => rfl
    | none =>
      simp only [block_eq o h.2]
      rfl
  | whileLoop =>
    simp only [statement, simplerStatement, expression_eq h.1, block_eq o h.2, bind, Except.bind]
    split <;> rfl
  | forLoop =>
    obtain ⟨v, rfl, hinit, hcondition, hstep, hbody⟩ := h
    simp only [statement, simplerStatement, expression_eq hinit, expression_eq hcondition,
      expression_eq_of_update hstep, block_eq o hbody, bind, Except.bind]
    exact finishFor_eq (replaces_block o hbody).inScope
  | switch =>
    simp only [statement, simplerStatement, expression_eq h.1, block_eq o h.2.2, switchCases_eq o h.2.1]
    rfl
  | _ => exact plainStatement_eq h rfl

theorem statements_eq {Γ : Site} (o : SimplifyOptions) : ∀ {l : List Node}, Scoped.Statements Γ l →
    statements o l = .ok (simplerStatements o l)
  | [], _ => rfl
  | n :: ns, h => by
    simp only [statements, simplerStatements, statement_eq o h.1, statements_eq o h.2]
    rfl

theorem block_eq {Γ : Site} (o : SimplifyOptions) : ∀ {l : Option (List Node)}, Scoped.Block Γ l →
    block o l = .ok (simplerBlock o l)
  | none, _ => rfl
  | some ns, h => by
    simp only [block, simplerBlock, statements_eq o (l := ns) h]
    rfl

theorem ifChain_eq {Γ : Site} (o : SimplifyOptions) : ∀ {l : List (Arm Node)}, Scoped.Arms Γ l →
    ifChain o l = .ok (simplerChain o l)
  | [], _ => rfl
  | ⟨guard, body⟩ :: rest, h => by
    simp only [ifChain, simplerChain, expression_eq h.1, block_eq o h.2.1, ifChain_eq o h.2.2, bind,
      Except.bind]
    split
    · rfl
    split <;> rfl

theorem switchCases_eq {Γ : Site} (o : SimplifyOptions) : ∀ {l : List (Arm Node)}, Scoped.Arms Γ l →
    switchCases o l = .ok (simplerCases o l)
  | [], _ => rfl
  | ⟨guard, body⟩ :: rest, h => by
    simp only [switchCases, simplerCases, expression_eq h.1, block_eq o h.2.1, switchCases_eq o h.2.2]
    rfl

end

end Simplify

def Program.simpler (o : SimplifyOptions) (p : Program) : Program :=
  ⟨p.imports, Simplify.simplerBlock o p.statements⟩

namespace Program.WellFormed

variable {p : Program}

theorem simplify_eq (h : p.WellFormed) (o : SimplifyOptions) : p.simplify o = .ok (p.simpler o) := by
  unfold Program.simplify
  rw [Simplify.block_eq o h.inScope]
  rfl

theorem simpler (h : p.WellFormed) (o : SimplifyOptions) : (p.simpler o).WellFormed := by
  have hblock := Simplify.replaces_block o h.inScope
  exact ⟨hblock.inScope, hblock.declared.nodup h.nodup, fun id hid => h.own id (hblock.declared.subset hid)⟩

end Program.WellFormed

end LemonScript
