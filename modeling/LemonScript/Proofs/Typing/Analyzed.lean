import LemonScript.Proofs.Typing.Shown
/-!
# What analysis gives

Analysis of a tree of the surface language finds a mistake or gives a decoration of that tree, and never
meets a fault. The decoration is in scope. Expressions leave the scope as it is. Behind a statement the
scope shows what is visible there, and the entities that it declares are numbered one after the other.
-/

namespace LemonScript

def Site.Sees (Δ : Site) : Entity → Prop
  | .var v => Δ.SeesVariable v.id
  | .fn f => Δ.SeesFunction f.id

namespace Analysis

/-- The types of all visible entities are known, and the entities may be used at the place. -/
def Usable (Δ : Site) (Γ : List Entity) : Prop := ∀ e ∈ Γ, e.ty.isResolved = true ∧ Δ.Sees e

variable {Γ : List Entity} {Δ : Site} {here : Surroundings} {s : Scope}
variable {Δ' : Site} {ps : List Parameter} {n : Node} {t : Ty} {name : String} {m : Analysis Node}

theorem Usable.mono (h : Δ.Under Δ') (hΓ : Usable Δ Γ) : Usable Δ' Γ := by
  intro e he
  obtain ⟨htype, hsees⟩ := hΓ e he
  refine ⟨htype, ?_⟩
  cases e with
  | var v => exact h.seesVariable hsees
  | fn f => exact h.seesFunction hsees

theorem Usable.loop (hΓ : Usable Δ Γ) : Usable Δ.loop Γ := hΓ.mono Δ.within_loop.toUnder

theorem Usable.function (hΓ : Usable Δ Γ) : Usable Δ.function Γ := hΓ.mono ⟨subset_rfl, subset_rfl⟩

theorem usable_library : Usable .top Library.entities := by
  intro e he
  simp only [Library.entities, Library.functions, Library.constants, List.map_cons, List.map_nil,
    List.cons_append, List.nil_append, List.mem_cons, List.not_mem_nil, or_false] at he
  rcases he with rfl | rfl | rfl
  all_goals exact ⟨rfl, .inl (by decide)⟩

theorem Usable.declare {v : Variable} (hv : v.type.isResolved) (hΓ : Usable Δ Γ) :
    Usable (Δ.declare v.id) (.var v :: Γ) :=
  List.forall_mem_cons.mpr
    ⟨⟨hv, Δ.seesVariable_declare v.id⟩, hΓ.mono (Δ.within_declare v.id).toUnder⟩

theorem Usable.declareFunction {f : Function} (hf : f.ty.isResolved) (hΓ : Usable Δ Γ) :
    Usable (Δ.declareFunction f.id) (.fn f :: Γ) :=
  List.forall_mem_cons.mpr
    ⟨⟨hf, Δ.seesFunction_declareFunction f.id⟩, hΓ.mono (Δ.within_declareFunction f.id).toUnder⟩

theorem Usable.parameters (hps : ps.all Parameter.isDecorated) (hΓ : Usable Δ Γ) :
    Usable (Δ.declareAll (parameterIds (some ps))) (Lexical.parameterEntities ps ++ Γ) := by
  intro e he
  rcases List.mem_append.mp he with he | he
  · rw [Lexical.parameterEntities, List.mem_reverse, List.mem_map] at he
    obtain ⟨v, hv, rfl⟩ := he
    obtain ⟨p, hp, hentity⟩ := List.mem_filterMap.mp hv
    have hdecorated := List.all_eq_true.mp hps p hp
    simp only [Parameter.isDecorated, hentity, Option.any_some, Bool.and_eq_true] at hdecorated
    have hid : v.id ∈ parameterIds (some ps) := List.mem_filterMap.mpr ⟨p, hp, by rw [hentity]; rfl⟩
    exact ⟨hdecorated.2, .inr (.inr hid)⟩
  · exact hΓ.mono (Δ.within_declareAll _).toUnder e he

theorem Usable.behind {n' : Node} (h : Decorates.Statement Γ n n') (hΓ : Usable Δ Γ) :
    Usable (Δ.behind n') (Lexical.behind Γ n') := by
  have hdecorated := h.decorated
  cases n' with
  | varDecl _ _ _ _ _ entity =>
    cases entity with
    | none => exact hΓ
    | some v =>
      simp only [Node.every, Node.isDecorated, Option.any_some, Bool.and_eq_true] at hdecorated
      exact hΓ.declare hdecorated.1.2
  | funDecl _ _ _ _ _ entity =>
    cases entity with
    | none => exact hΓ
    | some f =>
      simp only [Node.every, Node.isDecorated, Option.any_some, Bool.and_eq_true] at hdecorated
      exact hΓ.declareFunction hdecorated.1.2.2
  | _ => exact hΓ

/-! ### Expressions -/

namespace Analyzed

def Expression (Γ : List Entity) (Δ : Site) (n n' : Node) : Prop :=
  Decorates.Expression Γ n n' ∧ Scoped.Expression Δ n'

def Expressions (Γ : List Entity) (Δ : Site) (ns ns' : List Node) : Prop :=
  Decorates.Expressions Γ ns ns' ∧ Scoped.Expressions Δ ns'

def Optional (Γ : List Entity) (Δ : Site) (ns ns' : Option (List Node)) : Prop :=
  Decorates.Optional Γ ns ns' ∧ Scoped.Optional Δ ns'

def Entries (Γ : List Entity) (Δ : Site) (es es' : List (Entry Node)) : Prop :=
  Decorates.Entries Γ es es' ∧ Scoped.Entries Δ es'

end Analyzed

open Analyzed (Expression Expressions Optional Entries)

theorem keeps_identifier (hs : Shows Γ s.names) (hΓ : Usable Δ Γ) (name : String) :
    Keeps (identifier name) s (Expression Γ Δ (.ident name)) := by
  refine (keeps_lookUp name).bind fun m hfound => ?_
  have hkept := hs.kept _ (Shows.mem_of_lookup hfound)
  cases m with
  | var v =>
    obtain ⟨hmem, hdenotes⟩ := hs.denotes hfound rfl
    have hname : v.name = name := hkept.1
    obtain ⟨htype, hsees⟩ := hΓ _ hmem
    exact keeps_pure ⟨⟨by rw [Node.erase, hname], htype, hdenotes⟩, hsees⟩
  | fn f =>
    obtain ⟨hmem, hdenotes⟩ := hs.denotes hfound rfl
    have hname : f.name = name := hkept.1
    obtain ⟨htype, hsees⟩ := hΓ _ hmem
    have hsignature : f.signature.isSome = true := by
      cases hsignature : f.signature with
      | none => simp [Entity.ty, Function.ty, hsignature, Ty.isResolved] at htype
      | some => rfl
    simp only [Option.isNone_eq_false_iff.mpr hsignature]
    exact keeps_pure ⟨⟨by rw [Node.erase, hname], htype, hdenotes⟩, hsees, hsignature⟩
  | type t => exact meets_reject

theorem resolved_of_eq (h : t = .boolean ∨ t = n.typeOf) (hn : n.typeOf.isResolved) :
    t.isResolved := by
  rcases h with rfl | rfl
  · rfl
  · exact hn

/-- The arguments of a call have to fit what is called. -/
theorem keeps_call {callee : Node} {args : Option (List Node)}
    (hcallee : Keeps (node here callee) s (Expression Γ Δ callee))
    (hargs : Keeps (block here args) s (Optional Γ Δ args)) :
    Keeps (node here (.call callee args .nothing)) s (Expression Γ Δ (.call callee args .nothing)) := by
  rw [node]
  refine hcallee.bind fun callee hcallee => ?_
  refine (keeps_calleeSignature callee).bind fun signature hsignature => ?_
  have hresult := hcallee.1.typeOf
  rw [hsignature, Signature.ty, Ty.isResolved, Bool.and_eq_true] at hresult
  refine hargs.bind fun args hargs => ?_
  refine (keeps_require _ _).bind fun _ _ => (keeps_argumentsFit _ _).bind fun _ _ => ?_
  exact keeps_pure ⟨hcallee.1.call hargs.1 hresult.2, hcallee.2, hargs.2⟩

theorem keeps_arrayLiteral {ns ns' : List Node} (h : Expressions Γ Δ ns ns') :
    Keeps (arrayLiteral ns') s (Expression Γ Δ (.arrayLit (some ns) .nothing)) := by
  cases ns' with
  | nil => exact keeps_pure ⟨h.1.optional_some.arrayLit rfl, trivial⟩
  | cons =>
    refine (keeps_uniform _ _).bind fun _ _ => keeps_pure ⟨h.1.optional_some.arrayLit ?_, h.2⟩
    rw [Ty.isResolved]
    exact h.1.expressions_head

theorem keeps_mapLiteral {es es' : List (Entry Node)} (h : Entries Γ Δ es es') :
    Keeps (mapLiteral es') s (Expression Γ Δ (.mapLit es .nothing)) := by
  cases es' with
  | nil => exact keeps_pure ⟨h.1.mapLit rfl, trivial⟩
  | cons =>
    refine (keeps_uniform _ _).bind fun _ _ => (keeps_uniform _ _).bind fun _ _ => ?_
    refine (keeps_require _ _).bind fun _ _ => keeps_pure ⟨h.1.mapLit ?_, h.2⟩
    rw [Ty.isResolved, Bool.and_eq_true]
    exact h.1.entries_head

section

variable (hs : Shows Γ s.names) (hΓ : Usable Δ Γ)
include hs hΓ
set_option linter.unusedSectionVars false

mutual

theorem keeps_expression :
    ∀ {n : Node}, Surface.Expression n → Keeps (node here n) s (Expression Γ Δ n)
  | .ident name, _ => by
    rw [node]
    exact keeps_identifier hs hΓ name
  | .intLit _, _ | .floatLit _, _ | .stringLit _, _ => by
    rw [node]
    exact keeps_pure ⟨⟨rfl, rfl, trivial⟩, trivial⟩
  | .boolLit name value type, h => by
    obtain ⟨-, -, rfl⟩ := Node.boolLit.inj h
    rw [node]
    exact keeps_pure ⟨⟨rfl, rfl, trivial⟩, trivial⟩
  | .binary left op right _, h => by
    obtain ⟨hop, hleft, hright, rfl⟩ := h
    rw [node]
    refine (keeps_expression hleft).bind fun left hleft => ?_
    refine (keeps_expression hright).bind fun right hright => ?_
    refine (keeps_binaryType left (.inl hop) right).bind fun type htype => ?_
    refine (keeps_compoundTarget left op).bind fun _ _ => ?_
    have htype := resolved_of_eq htype hleft.1.typeOf
    exact keeps_pure ⟨hleft.1.binary hright.1 op htype, hop, hleft.2, hright.2⟩
  | .unary op operand leading _, h => by
    obtain ⟨hop, hoperand, -, rfl⟩ := h
    rw [node]
    refine (keeps_expression hoperand).bind fun operand hoperand => ?_
    refine (keeps_unaryType operand).bind fun type htype => ?_
    have htype := resolved_of_eq htype.1 hoperand.1.typeOf
    exact keeps_pure ⟨hoperand.1.unary op leading htype, hop, hoperand.2⟩
  | .call callee args _, h => by
    obtain ⟨hcallee, hargs, rfl⟩ := h
    refine keeps_call ?_ (keeps_arguments hargs)
    rcases hcallee with hcallee | rfl
    · exact keeps_expression hcallee.expression
    · rw [node]
      exact keeps_identifier hs hΓ _
  | .arrayLit elements _, h => by
    obtain ⟨helements, rfl⟩ := h
    cases elements with
    | none => exact helements.elim
    | some ns =>
      rw [node, block, bind_assoc]
      exact (keeps_expressions (l := ns) helements).bind fun ns hns => keeps_arrayLiteral hns
  | .mapLit entries _, h => by
    obtain ⟨hentries, rfl⟩ := h
    rw [node]
    exact (keeps_entries hentries).bind fun entries hentries => keeps_mapLiteral hentries
  | .member array index _, h => by
    obtain ⟨harray, ⟨k, rfl⟩, rfl⟩ := h
    rw [node]
    refine (keeps_expression harray.expression).bind fun array harray => ?_
    split
    · next member index htype hindex =>
      have hmember := harray.1.typeOf
      rw [htype, Ty.isResolved] at hmember
      rw [hindex]
      exact keeps_pure ⟨harray.1.member _ hmember, rfl, harray.2⟩
    · next heq => simp at heq
    · exact meets_reject
  | .property map key _, h => by
    obtain ⟨hmap, hkey, rfl⟩ := h
    rw [node]
    refine (keeps_expression hmap.expression).bind fun map hmap => ?_
    split
    · next keyType valueType htype =>
      have hvalue := hmap.1.typeOf
      rw [htype, Ty.isResolved, Bool.and_eq_true] at hvalue
      refine (keeps_expression hkey).bind fun key hkey => ?_
      refine (keeps_require _ _).bind fun _ _ => ?_
      exact keeps_pure ⟨hmap.1.property hkey.1 hvalue.2, hmap.2, hkey.2⟩
    · exact meets_reject

theorem keeps_expressions :
    ∀ {l : List Node}, Surface.Expressions l → Keeps (nodes here l) s (Expressions Γ Δ l)
  | [], _ => by
    rw [nodes]
    exact keeps_pure ⟨⟨rfl, rfl, trivial⟩, trivial⟩
  | n :: ns, h => by
    rw [nodes]
    refine (keeps_expression h.1).bind fun n hn => ?_
    refine (keeps_expressions h.2).bind fun ns hns => ?_
    exact keeps_pure ⟨hn.1.expressions_cons hns.1, hn.2, hns.2⟩

theorem keeps_arguments :
    ∀ {l : Option (List Node)}, Surface.Arguments l → Keeps (block here l) s (Optional Γ Δ l)
  | some ns, h => by
    rw [block]
    refine (keeps_expressions (l := ns) h).bind fun ns hns => ?_
    exact keeps_pure ⟨hns.1.optional_some, hns.2⟩

theorem keeps_entries :
    ∀ {l : List (Entry Node)}, Surface.Entries l → Keeps (mapEntries here l) s (Entries Γ Δ l)
  | [], _ => by
    rw [mapEntries]
    exact keeps_pure ⟨⟨rfl, rfl, trivial⟩, trivial⟩
  | ⟨key, value⟩ :: rest, h => by
    rw [mapEntries]
    refine (keeps_expression h.1).bind fun key hkey => ?_
    refine (keeps_expression h.2.1).bind fun value hvalue => ?_
    refine (keeps_entries h.2.2).bind fun rest hrest => ?_
    exact keeps_pure ⟨hkey.1.entries_cons hvalue.1 hrest.1, hkey.2, hvalue.2, hrest.2⟩

end

end

theorem exists_variable (h : Expression Γ Δ (.ident name) n) (hn : ∀ f, n ≠ .fn f) :
    ∃ v, n = .var v ∧ Δ.SeesVariable v.id := by
  have herase := h.1.erase_eq
  have hscoped := h.2
  cases n with
  | var v => exact ⟨v, rfl, hscoped⟩
  | fn f => exact absurd rfl (hn f)
  | ident => exact hscoped.elim
  | _ => simp [Node.erase] at herase

theorem keeps_update (hs : Shows Γ s.names) (hΓ : Usable Δ Γ) (h : Surface.Update n) :
    Keeps (node here n) s (fun n' => Decorates.Expression Γ n n' ∧ Scoped.Update Δ n') := by
  unfold Surface.Update at h
  split at h
  · next name op right type =>
    obtain ⟨-, hop, hright, rfl⟩ := h
    rw [node, node]
    refine (keeps_identifier hs hΓ name).bind fun left hleft => ?_
    refine (keeps_expression hs hΓ hright).bind fun right hright => ?_
    refine (keeps_binaryType left (.inr hop) right).bind fun type htype => ?_
    refine (keeps_compoundTarget left op).bind fun _ hne => ?_
    obtain ⟨v, rfl, hv⟩ := exists_variable hleft (hne hop)
    have htype := resolved_of_eq htype hleft.1.typeOf
    exact keeps_pure ⟨hleft.1.binary hright.1 op htype, hv, hop, hright.2⟩
  · next op name leading type =>
    obtain ⟨-, hop, -, rfl⟩ := h
    rw [node, node]
    refine (keeps_identifier hs hΓ name).bind fun operand hoperand => ?_
    refine (keeps_unaryType operand).bind fun type htype => ?_
    obtain ⟨v, rfl, hv⟩ := exists_variable hoperand (htype.2 hop)
    exact keeps_pure ⟨hoperand.1.unary op leading (resolved_of_eq htype.1 hoperand.1.typeOf), hv, hop⟩
  · exact h.elim

/-! ### Declarations -/

theorem parameterIds_cons (type : Ty) (name : String) (v : Variable) (ps : List Parameter) :
    parameterIds (some (⟨type, name, some v⟩ :: ps)) = v.id :: parameterIds (some ps) := rfl

/-- Parameters were declared from the scope `s` to the scope `s'`. -/
structure AnalyzedParameters (Γ : List Entity) (s : Scope) (ps ps' : List Parameter) (s' : Scope) :
    Prop where
  decorates : Decorates.Parameters Γ ps ps'
  shown : Shows (Lexical.parameterEntities ps' ++ Γ) s'.names
  suffix : s.names <:+ s'.names
  numbered : Consecutive s.nextId (parameterIds (some ps')) s'.nextId

theorem meets_parameters : ∀ {ps : List Parameter} {Γ : List Entity} {s : Scope},
    (∀ p ∈ ps, Surface.IsParameter p) → Shows Γ s.names →
      Meets (declareParameters ps) s (AnalyzedParameters Γ s ps)
  | [], Γ, s, _, hs => meets_pure ⟨⟨rfl, rfl, trivial⟩, hs, List.suffix_rfl, rfl⟩
  | p :: ps, Γ, s, h, hs => by
    obtain ⟨⟨htype, hname, hentity⟩, hrest⟩ := List.forall_mem_cons.mp h
    rw [declareParameters]
    refine (meets_resolve htype hs).bind fun type s₁ htype => ?_
    refine (meets_newVariable _ _ _).bind fun v s₂ hv => ?_
    obtain ⟨rfl, rfl⟩ := hv
    refine (meets_declare _ _).bind fun _ s₂ hdeclared => ?_
    obtain ⟨hnew, rfl⟩ := hdeclared
    have hs₂ := htype.shown.cons (m := .var ⟨s₁.nextId, p.name, false, type⟩) hnew ⟨rfl, hname.letter⟩
    refine (meets_parameters hrest hs₂).bind fun ps' s₃ hps => ?_
    refine meets_pure ⟨?_, ?_, ?_, ?_⟩
    · exact Decorates.parameters_cons hentity (htype.shown.fresh hnew) _ htype.erase htype.resolved
        hps.decorates
    · rw [Lexical.parameterEntities_cons]
      exact hps.shown
    · exact htype.suffix.trans ((List.suffix_cons _ _).trans hps.suffix)
    · rw [parameterIds_cons]
      exact ⟨htype.nextId_eq, htype.nextId_eq ▸ hps.numbered⟩

theorem scoped_parameters (h : ps.all Parameter.isDecorated) : Scoped.Parameters (some ps) := by
  intro p hp
  have hdecorated := List.all_eq_true.mp h p hp
  rw [Parameter.isDecorated, Bool.and_eq_true] at hdecorated
  cases hentity : p.entity with
  | none => simp [hentity] at hdecorated
  | some v => rfl

/-! ### Statements -/

/-- A statement was analyzed from the scope `s` to the scope `s'`. -/
structure Analyzed (Γ : List Entity) (Δ : Site) (s : Scope) (n n' : Node) (s' : Scope) : Prop where
  decorates : Decorates.Statement Γ n n'
  inScope : Scoped.Statement Δ n'
  shown : Shows (Lexical.behind Γ n') s'.names
  numbered : Consecutive s.nextId n'.declared s'.nextId

/-- Statements were analyzed, and what they declare may be out of sight again. -/
structure AnalyzedBlock (Γ : List Entity) (Δ : Site) (s : Scope) (ns ns' : Option (List Node))
    (s' : Scope) : Prop where
  decorates : Decorates.Block Γ ns ns'
  inScope : Scoped.Block Δ ns'
  numbered : Consecutive s.nextId (Node.declaredIn ns') s'.nextId

/-- Conditions or values with their blocks were analyzed. -/
structure AnalyzedArms (Γ : List Entity) (Δ : Site) (s : Scope) (arms arms' : List (Arm Node))
    (s' : Scope) : Prop where
  decorates : Decorates.Arms Γ arms arms'
  inScope : Scoped.Arms Δ arms'
  names_eq : s'.names = s.names
  numbered : Consecutive s.nextId (Node.declaredInArms arms') s'.nextId

theorem Keeps.analyzed (hs : Shows Γ s.names)
    (h : Keeps m s fun n' => Decorates.Expression Γ n n' ∧ (Scoped.Update Δ n' ∨ Scoped.Expression Δ n')) :
    Meets m s (Analyzed Γ Δ s n) := by
  refine Meets.imp h fun n' s' hn' => ?_
  obtain ⟨rfl, hdecorates, hscoped⟩ := hn'
  obtain ⟨hstatement, hbehind⟩ := hdecorates.statement
  obtain ⟨hinScope, hdeclared, -⟩ := Scoped.statement_of_simple hscoped
  exact ⟨hstatement, hinScope, (hbehind Γ).symm ▸ hs, by rw [hdeclared]; rfl⟩

theorem Keeps.analyzed_expression (hs : Shows Γ s.names) (h : Keeps m s (Expression Γ Δ n)) :
    Meets m s (Analyzed Γ Δ s n) :=
  Keeps.analyzed hs (h.imp fun _ _ hn => ⟨hn.1, hn.2.1, .inr hn.2.2⟩)

/-- A statement may be analyzed: its surroundings are those of its place, and the scope shows what may be used
there. -/
structure Ready (here : Surroundings) (s : Scope) (Γ : List Entity) (Δ : Site) : Prop where
  inLoop : here.inLoop = true → Δ.inLoop
  inFunction : here.result.isSome = true → Δ.inFunction
  shown : Shows Γ s.names
  usable : Usable Δ Γ

namespace Ready

variable {s' : Scope}

theorem top : Ready ⟨false, none⟩ .initial Library.entities .top := ⟨by simp, by simp, .initial, usable_library⟩

theorem function {result : Ty} (hs : Shows Γ s.names) (hΓ : Usable Δ Γ) :
    Ready ⟨false, some result⟩ s Γ Δ.function :=
  ⟨by simp, fun _ => trivial, hs, hΓ.function⟩

variable (h : Ready here s Γ Δ)

include h

theorem loop : Ready { here with inLoop := true } s Γ Δ.loop :=
  ⟨fun _ => trivial, h.inFunction, h.shown, h.usable.loop⟩

theorem of_names_eq (hnames : s'.names = s.names) : Ready here s' Γ Δ :=
  ⟨h.inLoop, h.inFunction, hnames ▸ h.shown, h.usable⟩

theorem mono (hΔ : Δ.Within Δ') {Γ' : List Entity} (hs : Shows Γ' s'.names) (hΓ : Usable Δ' Γ') :
    Ready here s' Γ' Δ' :=
  ⟨fun hloop => hΔ.inLoop (h.inLoop hloop), fun hresult => hΔ.inFunction (h.inFunction hresult), hs, hΓ⟩

theorem behind {n' : Node} (hn : Analyzed Γ Δ s n n' s') : Ready here s' (Lexical.behind Γ n') (Δ.behind n') :=
  h.mono (Δ.within_behind n') hn.shown (h.usable.behind hn.decorates)

end Ready

/-- The analysis of a block finds a mistake or decorates the block. -/
def MeetsBlock (l : Option (List Node)) : Prop :=
  ∀ {here : Surroundings} {s : Scope} {Γ : List Entity} {Δ : Site},
    Ready here s Γ Δ → Meets (block here l) s (AnalyzedBlock Γ Δ s l)

theorem MeetsBlock.inBlock {l : Option (List Node)} (hl : MeetsBlock l) (h : Ready here s Γ Δ) :
    Meets (inBlock (block here l)) s (fun l' s' => AnalyzedBlock Γ Δ s l l' s' ∧ s'.names = s.names) := by
  refine (meets_inBlock (hl h)).imp fun l' s' h => ?_
  obtain ⟨t, ht, rfl⟩ := h
  exact ⟨⟨ht.decorates, ht.inScope, ht.numbered⟩, rfl⟩

theorem AnalyzedArms.cons {guard guard' : Node} {body body' : Option (List Node)}
    {rest rest' : List (Arm Node)} {s₁ s₂ : Scope} (hrest : AnalyzedArms Γ Δ s₁ rest rest' s₂)
    (hguard : Expression Γ Δ guard guard')
    (hbody : AnalyzedBlock Γ Δ s body body' s₁ ∧ s₁.names = s.names) :
    AnalyzedArms Γ Δ s (⟨guard, body⟩ :: rest) (⟨guard', body'⟩ :: rest') s₂ where
  decorates := hguard.1.arms_cons hbody.1.decorates hrest.decorates
  inScope := ⟨hguard.2, hbody.1.inScope, hrest.inScope⟩
  names_eq := hrest.names_eq.trans hbody.2
  numbered := hbody.1.numbered.append hrest.numbered

theorem meets_variable (hs : Shows Γ s.names) (ht : t.Spelled) (hname : IsName name) {init : Option Node}
    (isConst isStatic : Bool)
    (hinit : n = .missing ∧ init = none ∨ ∃ n', init = some n' ∧ Expression Γ Δ n n') : Meets (do
      let type ← resolve t
      let v ← newVariable name isConst type
      match init with
      | some init => sameType (.var v) init
      | none => pure ()
      declare name (.var v)
      return .varDecl type name (init.getD .missing) isConst isStatic (some v)) s
        (Analyzed Γ Δ s (.varDecl t name n isConst isStatic none)) := by
  refine (meets_resolve ht hs).bind fun type s₁ htype => ?_
  refine (meets_newVariable _ _ _).bind fun v s₂ hv => ?_
  obtain ⟨rfl, rfl⟩ := hv
  have hrest : ∀ n', (n = .missing ∧ n' = .missing ∨ Expression Γ Δ n n') → Meets (do
      declare name (.var ⟨s₁.nextId, name, isConst, type⟩)
      return Node.varDecl type name n' isConst isStatic (some ⟨s₁.nextId, name, isConst, type⟩))
        { s₁ with nextId := s₁.nextId + 1 }
        (Analyzed Γ Δ s (.varDecl t name n isConst isStatic none)) := by
    intro n' hn'
    refine (meets_declare _ _).bind fun _ s₂ hdeclared => ?_
    obtain ⟨hnew, rfl⟩ := hdeclared
    refine meets_pure ⟨?_, ⟨hn'.imp And.right And.right, rfl⟩, ?_, htype.nextId_eq, ?_⟩
    · exact Decorates.varDecl (htype.shown.fresh hnew) (hn'.imp_right And.left) _ isConst isStatic
        htype.erase htype.resolved
    · exact htype.shown.cons (m := .var ⟨s₁.nextId, name, isConst, type⟩) hnew ⟨rfl, hname.letter⟩
    · rw [htype.nextId_eq]
      rfl
  rcases hinit with ⟨hmissing, rfl⟩ | ⟨n', rfl, hn'⟩
  · exact hrest .missing (.inl ⟨hmissing, rfl⟩)
  · exact (keeps_require _ _).bind fun _ _ => hrest n' (.inr hn')

section Statements

variable (hready : Ready here s Γ Δ)

include hready

theorem meets_varDecl {type : Ty} {init : Node} {isConst isStatic : Bool} {entity : Option Variable}
    (h : Surface.Statement (.varDecl type name init isConst isStatic entity)) :
    Meets (node here (.varDecl type name init isConst isStatic entity)) s
      (Analyzed Γ Δ s (.varDecl type name init isConst isStatic entity)) := by
  obtain ⟨htype, hname, hinit, rfl⟩ := h
  rw [node]
  split
  · next hmissing =>
    have hinit : init = .missing := by
      cases init <;> first | rfl | simp [Node.isMissing] at hmissing
    exact (keeps_pure (P := (· = none)) rfl).bind fun init' hinit' =>
      meets_variable hready.shown htype hname isConst isStatic (.inl ⟨hinit, hinit'⟩)
  · next hpresent =>
    rcases hinit with rfl | hinit
    · exact absurd rfl hpresent
    simp only [bind_map_left]
    refine (keeps_expression hready.shown hready.usable hinit).bind fun init' hinit' => ?_
    have hsome : init = .missing ∧ some init' = none ∨
        ∃ n', some init' = some n' ∧ Expression Γ Δ init n' := .inr ⟨init', rfl, hinit'⟩
    exact meets_variable hready.shown htype hname isConst isStatic hsome

theorem meets_funDecl {isStatic : Bool} {result : Ty} {ps : List Parameter} {body : Option (List Node)}
    (hresult : result.Spelled) (hname : IsName name) (hps : ∀ p ∈ ps, Surface.IsParameter p)
    (hbody : MeetsBlock body) : Meets (node here (.funDecl name isStatic result (some ps) body none)) s
      (Analyzed Γ Δ s (.funDecl name isStatic result (some ps) body none)) := by
  rw [node]
  refine (meets_resolve hresult hready.shown).bind fun result s₁ hresult => ?_
  refine meets_freshId.bind fun id s₂ hid => ?_
  obtain ⟨rfl, rfl⟩ := hid
  refine keeps_get.bind fun outer houter => ?_
  subst houter
  refine (meets_declare _ _).bind fun _ s₂ hdeclared => ?_
  obtain ⟨hnew, rfl⟩ := hdeclared
  -- the function has no signature while its parameters are declared
  have hs₂ : Shows (.fn ⟨s₁.nextId, name, none⟩ :: Γ)
      ((name, .fn ⟨s₁.nextId, name, none⟩) :: s₁.names) :=
    hresult.shown.cons (m := .fn ⟨s₁.nextId, name, none⟩) hnew ⟨rfl, hname.letter⟩
  refine (meets_parameters hps hs₂).bind fun ps' s₃ hps' => ?_
  obtain ⟨hps', hs₃, ⟨inner, hinner⟩, hnumbered⟩ := hps'
  refine (meets_modify _).bind fun _ s₄ hs₄ => ?_
  subst hs₄
  have hparams : Decorates.Parameters
      (.fn ⟨s₁.nextId, name, some ⟨ps'.map (·.type), result⟩⟩ :: Γ) ps ps' :=
    ⟨hps'.erase_eq, hps'.decorated, hps'.lexical.congr (by rw [List.map_cons, List.map_cons]; rfl)⟩
  have htype : Ty.isResolved (.func (ps'.map (·.type)) result) = true := by
    rw [Ty.isResolved, Decorates.areResolved_parameters hps'.decorated, hresult.resolved]
    rfl
  have hself : Usable (Δ.declareFunction s₁.nextId)
      (.fn ⟨s₁.nextId, name, some ⟨ps'.map (·.type), result⟩⟩ :: Γ) := hready.usable.declareFunction htype
  rw [← hinner] at hs₃ ⊢
  have hs₄ := @Shows.rebind Γ _ ⟨s₁.nextId, name, none⟩
    ⟨s₁.nextId, name, some ⟨ps'.map (·.type), result⟩⟩ inner s₁.names hs₃ hresult.shown rfl
  refine (hbody (.function hs₄ (hself.parameters hps'.decorated))).bind fun body s₅ hbody => ?_
  refine (meets_modify _).bind fun _ s₆ hs₆ => ?_
  subst hs₆
  refine meets_pure ⟨?_, ⟨_, rfl, scoped_parameters hps'.decorated, hbody.inScope⟩,
    hresult.shown.cons (m := .fn ⟨s₁.nextId, name, _⟩) hnew ⟨rfl, hname.letter⟩, ?_⟩
  · exact Decorates.funDecl (hresult.shown.fresh hnew) _ isStatic hresult.erase hresult.resolved
      hparams hbody.decorates
  · exact ⟨hresult.nextId_eq, hresult.nextId_eq ▸ hnumbered.append hbody.numbered⟩

theorem meets_ifElse {cases : List (Arm Node)} {otherwise : Option (List Node)}
    (hcases : Meets (ifCases here cases) s (AnalyzedArms Γ Δ s cases)) (hotherwise : MeetsBlock otherwise) :
    Meets (node here (.ifElse cases otherwise)) s (Analyzed Γ Δ s (.ifElse cases otherwise)) := by
  rw [node]
  refine hcases.bind fun cases s₁ hcases => ?_
  have hready₁ := hready.of_names_eq hcases.names_eq
  refine (hotherwise.inBlock hready₁).bind fun otherwise s₂ hotherwise => ?_
  obtain ⟨hotherwise, hnames⟩ := hotherwise
  exact meets_pure ⟨hcases.decorates.ifElse hotherwise.decorates,
    ⟨hcases.inScope, hotherwise.inScope⟩, hnames ▸ hready₁.shown, hcases.numbered.append hotherwise.numbered⟩

theorem meets_forLoop {init condition step : Node} {body : Option (List Node)} (hname : IsName name)
    (hinit : Surface.Expression init) (hcondition : Surface.Expression condition) (hstep : Surface.Update step)
    (hbody : MeetsBlock body) : Meets (node here (.forLoop name init condition step body none)) s
      (Analyzed Γ Δ s (.forLoop name init condition step body none)) := by
  rw [node]
  refine (keeps_expression hready.shown hready.usable hinit).bind fun init' hinit' => ?_
  refine (keeps_require _ _).bind fun _ _ => ?_
  refine (meets_inBlock (Q := fun n' s' =>
    Decorates.Statement Γ (.forLoop name init condition step body none) n' ∧ Scoped.Statement Δ n' ∧
      Lexical.behind Γ n' = Γ ∧ Consecutive s.nextId n'.declared s'.nextId) ?_).imp fun n' s' h => ?_
  · refine (meets_newVariable _ _ _).bind fun v s₁ hv => ?_
    obtain ⟨rfl, rfl⟩ := hv
    refine (meets_declare _ _).bind fun _ s₁ hdeclared => ?_
    obtain ⟨hnew, rfl⟩ := hdeclared
    -- behind its initial value the header sees the variable, like the body
    have hs₁ := hready.shown.cons (m := .var ⟨s.nextId, name, false, .int⟩) hnew ⟨rfl, hname.letter⟩
    have hΓ₁ := hready.usable.declare (v := ⟨s.nextId, name, false, .int⟩) rfl
    refine (keeps_expression hs₁ hΓ₁ hcondition).bind fun condition hcondition => ?_
    refine (keeps_require _ _).bind fun _ _ => ?_
    refine (keeps_update hs₁ hΓ₁ hstep).bind fun step hstep => ?_
    refine (hbody (hready.mono (Δ.within_declare _) hs₁ hΓ₁).loop).bind fun body s₂ hbody => ?_
    exact meets_pure ⟨Decorates.forLoop (hready.shown.fresh hnew) _ hinit'.1 hcondition.1 hstep.1 hbody.decorates,
      ⟨_, rfl, hinit'.2, hcondition.2, hstep.2, hbody.inScope⟩, rfl, rfl, hbody.numbered⟩
  · obtain ⟨t, ⟨hn', hinScope, hbehind, hnumbered⟩, rfl⟩ := h
    exact ⟨hn', hinScope, hbehind.symm ▸ hready.shown, hnumbered⟩

theorem meets_switch {scrutinee : Node} {cases : List (Arm Node)} {default : Option (List Node)}
    (hscrutinee : Surface.Expression scrutinee)
    (hcases : Meets (switchCases here cases) s (AnalyzedArms Γ Δ s cases)) (hdefault : MeetsBlock default) :
    Meets (node here (.switch scrutinee cases default)) s (Analyzed Γ Δ s (.switch scrutinee cases default)) := by
  rw [node]
  refine (keeps_expression hready.shown hready.usable hscrutinee).bind fun scrutinee hscrutinee => ?_
  refine hcases.bind fun cases s₁ hcases => ?_
  have hready₁ := hready.of_names_eq hcases.names_eq
  refine (keeps_require _ _).bind fun _ _ => ?_
  refine (hdefault.inBlock hready₁).bind fun default s₂ hdefault => ?_
  obtain ⟨hdefault, hnames⟩ := hdefault
  exact meets_pure ⟨hscrutinee.1.switch hcases.decorates hdefault.decorates,
    ⟨hscrutinee.2, hcases.inScope, hdefault.inScope⟩, hnames ▸ hready₁.shown,
    hcases.numbered.append hdefault.numbered⟩

end Statements

open Surface (Branches Clauses Default)

mutual

theorem meets_statement {Γ : List Entity} {Δ : Site} {here : Surroundings} {s : Scope}
    (hready : Ready here s Γ Δ) {n : Node} (h : Surface.Statement n) :
    Meets (node here n) s (Analyzed Γ Δ s n) := by
  have hs := hready.shown
  have hΓ := hready.usable
  cases n with
  | varDecl => exact meets_varDecl hready h
  | funDecl =>
    obtain ⟨hresult, hname, ⟨ps, rfl, hps⟩, hbody, rfl⟩ := h
    exact meets_funDecl hready hresult hname hps (meets_statementBlock hbody.default)
  | ifElse => exact meets_ifElse hready (meets_ifCases hready h.2.1) (meets_statementBlock h.2.2.default)
  | forLoop =>
    obtain ⟨hname, hinit, hcondition, hstep, hbody, rfl⟩ := h
    exact meets_forLoop hready hname hinit hcondition hstep (meets_statementBlock hbody.default)
  | switch =>
    exact meets_switch hready h.1.expression (meets_switchCases hready h.2.2.1) (meets_statementBlock h.2.2.2)
  | whileLoop condition body =>
    rw [node]
    refine (keeps_expression hs hΓ h.1).bind fun condition hcondition => ?_
    refine (keeps_require _ _).bind fun _ _ => ?_
    refine (MeetsBlock.inBlock (meets_statementBlock h.2.default) hready.loop).bind fun body s₁ hbody => ?_
    exact meets_pure ⟨hcondition.1.whileLoop hbody.1.decorates, ⟨hcondition.2, hbody.1.inScope⟩,
      hbody.2 ▸ hs, hbody.1.numbered⟩
  | assign target source =>
    rw [node]
    refine (keeps_expression hs hΓ h.2).bind fun source hsource => ?_
    refine (keeps_expression hs hΓ h.1.expression).bind fun target htarget => ?_
    refine (keeps_require _ _).bind fun _ _ => (keeps_notConstant target).bind fun _ _ => ?_
    exact meets_pure ⟨htarget.1.assign hsource.1, ⟨htarget.2, hsource.2⟩, hs, rfl⟩
  | classDecl =>
    rw [node]
    exact meets_reject
  | giveBack value =>
    rw [node]
    split
    · exact meets_reject
    · exact meets_reject
    · next result hresult =>
      refine (keeps_expression hs hΓ h).bind fun value hvalue => ?_
      refine (keeps_require _ _).bind fun _ _ => ?_
      have hinside := hready.inFunction (by rw [hresult]; rfl)
      exact meets_pure ⟨hvalue.1.giveBack, ⟨hinside, hvalue.2⟩, hs, rfl⟩
  | giveBackNothing =>
    rw [node]
    split
    · exact meets_reject
    · next hresult =>
      exact meets_pure ⟨⟨rfl, rfl, trivial⟩, hready.inFunction (by rw [hresult]; rfl), hs, rfl⟩
    · exact meets_reject
  | chop | next =>
    rw [node]
    refine (keeps_require _ _).bind fun _ hloop => ?_
    exact meets_pure ⟨⟨rfl, rfl, trivial⟩, hready.inLoop hloop, hs, rfl⟩
  | call =>
    obtain ⟨hcallee, hargs, rfl⟩ := h
    refine Keeps.analyzed_expression hs (keeps_call ?_ (keeps_arguments hs hΓ hargs))
    rcases hcallee with hcallee | rfl | rfl
    · exact keeps_expression hs hΓ hcallee.expression
    iterate 2
      rw [node]
      exact keeps_identifier hs hΓ _
  | _ =>
    rcases h with h | h
    · exact Keeps.analyzed hs ((keeps_update hs hΓ h).imp fun _ _ hn => ⟨hn.1, hn.2.1, .inl hn.2.2⟩)
    · exact Keeps.analyzed_expression hs (keeps_expression hs hΓ h)

theorem meets_statements {Γ : List Entity} {Δ : Site} {here : Surroundings} {s : Scope}
    (hready : Ready here s Γ Δ) : ∀ {l : List Node}, Surface.Statements l →
      Meets (nodes here l) s (fun l' => AnalyzedBlock Γ Δ s (some l) (some l'))
  | [], _ => by
    rw [nodes]
    exact meets_pure ⟨⟨rfl, rfl, trivial⟩, trivial, rfl⟩
  | n :: ns, h => by
    rw [nodes]
    refine (meets_statement hready h.1).bind fun n s₁ hn => ?_
    refine (meets_statements (hready.behind hn) h.2).bind fun ns s₂ hns => ?_
    exact meets_pure ⟨hn.decorates.block_cons hns.decorates, ⟨hn.inScope, hns.inScope⟩,
      hn.numbered.append hns.numbered⟩

theorem meets_statementBlock : ∀ {l : Option (List Node)}, Default l → MeetsBlock l
  | none, _ => fun _ => by
    rw [block]
    exact meets_pure ⟨⟨rfl, rfl, trivial⟩, trivial, rfl⟩
  | some ns, h => fun hready => by
    rw [block]
    exact (meets_statements hready (l := ns) h).bind fun ns s₁ hns => meets_pure hns

theorem meets_ifCases {Γ : List Entity} {Δ : Site} {here : Surroundings} {s : Scope}
    (hready : Ready here s Γ Δ) :
    ∀ {l : List (Arm Node)}, Branches l → Meets (ifCases here l) s (AnalyzedArms Γ Δ s l)
  | [], _ => by
    rw [ifCases]
    exact meets_pure ⟨⟨rfl, rfl, trivial⟩, trivial, rfl, rfl⟩
  | ⟨guard, body⟩ :: rest, h => by
    rw [ifCases]
    refine (keeps_expression hready.shown hready.usable h.1).bind fun guard hguard => ?_
    refine (keeps_require _ _).bind fun _ _ => ?_
    refine (MeetsBlock.inBlock (meets_statementBlock h.2.1.default) hready).bind fun body s₁ hbody => ?_
    refine (meets_ifCases (hready.of_names_eq hbody.2) h.2.2).bind fun rest s₂ hrest => ?_
    exact meets_pure (hrest.cons hguard hbody)

theorem meets_switchCases {Γ : List Entity} {Δ : Site} {here : Surroundings} {s : Scope}
    (hready : Ready here s Γ Δ) :
    ∀ {l : List (Arm Node)}, Clauses l → Meets (switchCases here l) s (AnalyzedArms Γ Δ s l)
  | [], _ => by
    rw [switchCases]
    exact meets_pure ⟨⟨rfl, rfl, trivial⟩, trivial, rfl, rfl⟩
  | ⟨guard, body⟩ :: rest, h => by
    rw [switchCases]
    refine (keeps_expression hready.shown hready.usable h.1).bind fun guard hguard => ?_
    refine (MeetsBlock.inBlock (meets_statementBlock h.2.1.default) hready).bind fun body s₁ hbody => ?_
    refine (meets_switchCases (hready.of_names_eq hbody.2) h.2.2).bind fun rest s₂ hrest => ?_
    exact meets_pure (hrest.cons hguard hbody)

end

end Analysis

namespace Program

variable {p q : Program}

/-- What is known of the program that analysis gives. -/
structure Analyzed (p q : Program) : Prop where
  imports_eq : q.imports = p.imports
  decorates : Decorates.Block Library.entities p.statements q.statements
  inScope : Scoped.Block .top q.statements
  numbered : ∃ last, Consecutive Library.firstUserId (Node.declaredIn q.statements) last

theorem Analyzed.wellFormed (h : p.Analyzed q) : q.WellFormed := by
  obtain ⟨last, hnumbered⟩ := h.numbered
  refine ⟨h.inScope, hnumbered.nodup, fun id hid => ?_⟩
  have hle : Library.firstUserId ≤ id := hnumbered.le_of_mem hid
  simpa [Library.isLibrary] using hle

/-- A program of the surface language has a mistake, or analysis decorates it. -/
theorem analyze_cases (h : p.Surface) :
    (∃ q, p.analyze = .ok q ∧ p.Analyzed q) ∨ ∃ e, p.analyze = .error (.semantic e) := by
  have hmeets := Analysis.meets_statementBlock h.statements.default .top
  unfold Analysis.Meets at hmeets
  unfold Program.analyze
  split at hmeets
  · next statements s heq =>
    refine .inl ⟨⟨p.imports, statements⟩, ?_, rfl, hmeets.decorates, hmeets.inScope, _, hmeets.numbered⟩
    simp only [StateT.run, heq]
    rfl
  · next e heq =>
    refine .inr ⟨e, ?_⟩
    simp only [StateT.run, heq]
    rfl
  · exact hmeets.elim

theorem analyzed_of_analyze (hp : p.Surface) (h : p.analyze = .ok q) : p.Analyzed q := by
  rcases analyze_cases hp with ⟨r, hr, hanalyzed⟩ | ⟨e, he⟩
  · rw [h] at hr
    obtain rfl := Except.ok.inj hr
    exact hanalyzed
  · rw [h] at he
    cases he

theorem decorates_of_analyze (hp : p.Surface) (h : p.analyze = .ok q) :
    Decorates.Block Library.entities p.statements q.statements :=
  (analyzed_of_analyze hp h).decorates

theorem erase_of_analyze (hp : p.Surface) (h : p.analyze = .ok q) : q.erase = p := by
  rw [Program.erase, (analyzed_of_analyze hp h).imports_eq, (decorates_of_analyze hp h).erase_eq]

end Program

end LemonScript
