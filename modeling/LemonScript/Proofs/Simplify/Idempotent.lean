import LemonScript.Proofs.Simplify.WellFormed
/-!
# Simplification is done after one pass

A second pass finds nothing left to do. For an operator this is seen from what it became. A statement
that was kept is kept again, since what was decided about it depended on its simplified parts only. A
copy of a loop body is a plain statement with simplified parts, wherever its literals come from.
-/

namespace LemonScript

namespace Simplify

variable {Γ : Site}

/-! ### Expressions -/

variable {type : Ty} {n m : Node} {o : SimplifyOptions}
variable {operand left right : Node} {op : BinaryOp} {id : Int} {body : List Node}

theorem combineUnary_neg_of_not_isNumber (h : isNumber operand = false) (leading : Bool) (type : Ty) :
    combineUnary .neg operand leading type = .unary .neg operand leading type := by
  cases operand <;> first | rfl | simp [isNumber] at h

theorem simpler_binary (hop : ¬ op.IsUpdate) :
    simpler (.binary left op right type) = combine (simpler left) op (simpler right) type := by
  cases op <;> first | rfl | exact absurd trivial hop

theorem simpler_combine (hop : ¬ op.IsUpdate) (hleft : simpler left = left)
    (hright : simpler right = right) :
    simpler (combine left op right type) = combine left op right type := by
  generalize hn : combine left op right type = n
  have hcombined := combined_combine left op right type
  rw [hn] at hcombined
  cases hcombined with
  | int | float | string | bool => rfl
  | left => exact hleft
  | right => exact hright
  | negated _ _ hnumber =>
    rw [simpler, hright, combineUnary_neg_of_not_isNumber hnumber]
  | kept => rw [simpler_binary hop, hleft, hright, hn]

theorem simpler_combineUnary {op : UnaryOp} {leading : Bool} (h : simpler operand = operand) :
    simpler (combineUnary op operand leading type) = combineUnary op operand leading type := by
  generalize hn : combineUnary op operand leading type = n
  have hcombined := combinedUnary_combineUnary op operand leading type
  rw [hn] at hcombined
  cases hcombined with
  | int | float | bool => rfl
  | kept => rw [simpler, h, hn]

theorem simplerOptional_twice {l : Option (List Node)} (h : ∀ n ∈ l.getD [], simpler (simpler n) = simpler n) :
    simplerOptional (simplerOptional l) = simplerOptional l := by
  rw [simplerOptional_eq_map, simplerOptional_eq_map]
  cases l with
  | none => rfl
  | some ns =>
    rw [Option.map_some, Option.map_some, List.map_map]
    exact congrArg some (List.map_congr_left h)

theorem simplerEntries_twice {l : List (Entry Node)}
    (h : ∀ n ∈ l.flatMap Entry.children, simpler (simpler n) = simpler n) :
    simplerEntries (simplerEntries l) = simplerEntries l := by
  induction l with
  | nil => rfl
  | cons e l ih =>
    obtain ⟨he, hl⟩ := List.forall_mem_append.mp h
    simp only [simplerEntries, he e.key (.head _), he e.value (.tail _ (.head _)), ih hl]

theorem simpler_simpler (n : Node) : simpler (simpler n) = simpler n := by
  induction n with
  | h n ih =>
  cases n with
  | binary left op right type =>
    have hright := ih right (.tail _ (.head _))
    have hcombine (hop : ¬ op.IsUpdate) : simpler (combine _ op _ type) = _ :=
      simpler_combine hop (ih left (.head _)) hright
    cases op <;> first | exact hcombine id | simp only [simpler, hright]
  | unary _ operand => rw [simpler, simpler_combineUnary (ih operand (.head _))]
  | call =>
    obtain ⟨hcallee, hargs⟩ := List.forall_mem_cons.mp ih
    simp only [simpler, hcallee, simplerOptional_twice hargs]
  | arrayLit => simp only [simpler, simplerOptional_twice ih]
  | mapLit => simp only [simpler, simplerEntries_twice ih]
  | member array => simp only [simpler, ih array (.head _)]
  | property map key => simp only [simpler, ih map (.head _), ih key (.tail _ (.head _))]
  | _ => rfl

/-! ### Statements that contain no other one -/

theorem plain_of_expression (h : Scoped.Expression Γ n) : plain n = some [simpler n] := by
  cases n with
  | binary _ op =>
    have hop := h.1
    cases op <;> first | exact absurd hop id | rfl
  | varDecl | assign | giveBack => exact h.elim
  | _ => rfl

theorem plain_simpler (h : Scoped.Expression Γ n) :
    isPlain (simpler n) ∧ plain (simpler n) = some [simpler n] := by
  have hscoped := scoped_simpler h
  exact ⟨isPlain_of_simple (.inr hscoped), by rw [plain_of_expression hscoped, simpler_simpler]⟩

theorem plain_of_mem_assign {target source : Node} (htarget : simpler target = target)
    (hsource : simpler source = source) (hm : m ∈ (assign target source).getD []) :
    isPlain m ∧ plain m = some [m] := by
  unfold assign at hm
  split at hm
  · simp at hm
  · next hother =>
    obtain rfl : m = .assign target source := by simpa using hm
    refine ⟨rfl, ?_⟩
    rw [plain, htarget, hsource, assign, if_neg hother]

theorem plain_of_mem_plain (h : Scoped.Statement Γ n) (hplain : isPlain n)
    (hm : m ∈ (plain n).getD []) : isPlain m ∧ plain m = some [m] := by
  cases n with
  | varDecl type name init isConst isStatic entity =>
    obtain rfl : m = .varDecl type name (simpler init) isConst isStatic entity := by simpa [plain] using hm
    exact ⟨rfl, by rw [plain, simpler_simpler]⟩
  | assign => exact plain_of_mem_assign (simpler_simpler _) (simpler_simpler _) hm
  | giveBack value =>
    obtain rfl : m = .giveBack (simpler value) := by simpa [plain] using hm
    exact ⟨rfl, by rw [plain, simpler_simpler]⟩
  | giveBackNothing | chop | next =>
    obtain rfl := List.mem_singleton.mp hm
    exact ⟨rfl, rfl⟩
  | funDecl | ifElse | whileLoop | forLoop | switch => simp [isPlain] at hplain
  | binary left op right =>
    rcases h with h | h
    · cases left with
      | var v =>
        have hright := simpler_simpler right
        have hvar : simpler (.var v) = .var v := rfl
        have hop := h.2.1
        cases op <;> first
          | exact absurd hop id
          | exact plain_of_mem_assign hvar (simpler_combine id hvar hright) hm
      | _ => exact h.elim
    · rw [plain_of_expression h] at hm
      obtain rfl := List.mem_singleton.mp hm
      exact plain_simpler h
  | unary op operand =>
    obtain rfl := List.mem_singleton.mp hm
    rcases h with h | h
    · cases operand with
      | var v =>
        have hop := h.2
        cases op <;> first | exact absurd hop id | exact ⟨rfl, rfl⟩
      | _ => exact h.elim
    · exact plain_simpler h
  | _ =>
    obtain rfl := List.mem_singleton.mp hm
    exact plain_simpler (h.resolve_left id)

/-! ### All statements -/

def Stable (o : SimplifyOptions) (n : Node) : Prop := simplerStatement o n = some [n]

theorem simplerStatements_of_stable {l : List Node} (h : ∀ n ∈ l, Stable o n) :
    simplerStatements o l = l := by
  induction l with
  | nil => rfl
  | cons n l ih =>
    obtain ⟨hn, hl⟩ := List.forall_mem_cons.mp h
    rw [simplerStatements, hn, ih hl]
    rfl

theorem stable_of_mem_plain (h : Scoped.Statement Γ n) (hplain : isPlain n)
    (hm : m ∈ (plain n).getD []) : Stable o m := by
  obtain ⟨hm, heq⟩ := plain_of_mem_plain h hplain hm
  rw [Stable, simplerStatement_of_isPlain o hm, heq]

theorem stable_of_mem_copy {value : Int} (h : ∀ n ∈ body, Copied Γ id value n) :
    ∀ m ∈ copy id value body, Stable o m := by
  induction body with
  | nil => simp [copy]
  | cons n ns ih =>
    obtain ⟨hn, hns⟩ := List.forall_mem_cons.mp h
    intro m hm
    rcases List.mem_append.mp hm with hm | hm
    · exact stable_of_mem_plain hn.inScope hn.isPlain hm
    · exact ih hns m hm

theorem stable_of_mem_copies (h : ∀ value, ∀ n ∈ body, Copied Γ id value n) (values : List Int) :
    ∀ m ∈ copies id body values, Stable o m := by
  induction values with
  | nil => simp [copies]
  | cons value _ ih =>
    intro m hm
    rcases List.mem_append.mp hm with hm | hm
    · exact stable_of_mem_copy (h value) m hm
    · exact ih m hm

def StableBlock (o : SimplifyOptions) (l : Option (List Node)) : Prop := ∀ n ∈ l.getD [], Stable o n

theorem StableBlock.eq {l : Option (List Node)} (h : StableBlock o l) : simplerBlock o l = l := by
  cases l with
  | none => rfl
  | some ns => exact congrArg some (simplerStatements_of_stable h)

/-- The conditions that are left are no literals, so they are left again, and so is the block behind
them. -/
structure StableChain (o : SimplifyOptions) (chain : IfChain) : Prop where
  arms : simplerChain o chain.arms = ⟨chain.arms, none⟩
  always : ∀ body, chain.always = some body → StableBlock o body

mutual

theorem stable_statement {Γ : Site} (o : SimplifyOptions) {n : Node} (h : Scoped.Statement Γ n) :
    ∀ m ∈ (simplerStatement o n).getD [], Stable o m := by
  cases n with
  | funDecl =>
    obtain ⟨f, rfl, -, hbody⟩ := h
    intro m hm
    obtain rfl := List.mem_singleton.mp hm
    rw [Stable, simplerStatement, (stable_block o hbody).eq]
  | ifElse cases otherwise =>
    intro m hm
    have hchain := stable_chain o h.1
    have hrest : StableBlock o ((simplerChain o cases).always.getD (simplerBlock o otherwise)) := by
      cases halways : (simplerChain o cases).always with
      | none => exact stable_block o h.2
      | some body => exact hchain.always body halways
    simp only [simplerStatement] at hm
    split at hm
    · exact hrest m hm
    · next hsome =>
      obtain rfl := List.mem_singleton.mp hm
      simp only [Stable, simplerStatement, hchain.arms, if_neg hsome, Option.getD_none, hrest.eq]
  | whileLoop =>
    intro m hm
    simp only [simplerStatement] at hm
    split at hm
    · simp at hm
    · next hsome =>
      obtain rfl := List.mem_singleton.mp hm
      rw [Stable, simplerStatement, simpler_simpler, if_neg hsome, (stable_block o h.2).eq]
  | forLoop =>
    obtain ⟨v, rfl, hinit, hcondition, hstep, hbody⟩ := h
    intro m hm
    simp only [simplerStatement, simplerFor, Option.getD_some] at hm
    split at hm
    · next id values hunroll =>
      have hcopied := copied_of_unrolling? (replaces_block o hbody).inScope hunroll
      exact stable_of_mem_copies hcopied values m hm
    · next hkept =>
      obtain rfl := List.mem_singleton.mp hm
      rw [Stable, simplerStatement, simpler_simpler, simpler_simpler,
        simpler_simpler, (stable_block o hbody).eq, simplerFor, hkept]
  | switch =>
    intro m hm
    obtain rfl := List.mem_singleton.mp hm
    rw [Stable, simplerStatement, simpler_simpler, stable_cases o h.2.1, (stable_block o h.2.2).eq]
  | _ => exact fun _ hm => stable_of_mem_plain h rfl hm

theorem stable_statements {Γ : Site} (o : SimplifyOptions) : ∀ {l : List Node}, Scoped.Statements Γ l →
    ∀ m ∈ simplerStatements o l, Stable o m
  | [], _ => by simp [simplerStatements]
  | n :: ns, h => by
    intro m hm
    rcases List.mem_append.mp hm with hm | hm
    · exact stable_statement o h.1 m hm
    · exact stable_statements o h.2 m hm

theorem stable_block {Γ : Site} (o : SimplifyOptions) : ∀ {l : Option (List Node)}, Scoped.Block Γ l →
    StableBlock o (simplerBlock o l)
  | none, _ => by simp [StableBlock, simplerBlock]
  | some ns, h => stable_statements o (l := ns) h

theorem stable_chain {Γ : Site} (o : SimplifyOptions) : ∀ {l : List (Arm Node)}, Scoped.Arms Γ l →
    StableChain o (simplerChain o l)
  | [], _ => ⟨rfl, by simp [simplerChain]⟩
  | ⟨guard, body⟩ :: rest, h => by
    have hbody := stable_block o h.2.1
    have hrest := stable_chain o h.2.2
    simp only [simplerChain]
    split
    · refine ⟨rfl, ?_⟩
      rintro _ ⟨⟩
      exact hbody
    split
    · exact hrest
    · next htrue hfalse =>
      refine ⟨?_, hrest.always⟩
      simp only [simplerChain, simpler_simpler, if_neg htrue, if_neg hfalse, hbody.eq, hrest.arms]

theorem stable_cases {Γ : Site} (o : SimplifyOptions) : ∀ {l : List (Arm Node)}, Scoped.Arms Γ l →
    simplerCases o (simplerCases o l) = simplerCases o l
  | [], _ => rfl
  | ⟨guard, body⟩ :: rest, h => by
    simp only [simplerCases, simpler_simpler, (stable_block o h.2.1).eq, stable_cases o h.2.2]

end

end Simplify

theorem Program.WellFormed.simpler_twice {p : Program} (h : p.WellFormed) (o : SimplifyOptions) :
    (p.simpler o).simpler o = p.simpler o := by
  unfold Program.simpler
  rw [(Simplify.stable_block o h.inScope).eq]

end LemonScript
