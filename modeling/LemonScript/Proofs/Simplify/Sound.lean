import LemonScript.Proofs.Simplify.WellFormed
import LemonScript.Proofs.Typing.Sound
import LemonScript.Proofs.Typing.Subtype
/-!
# Simplification keeps types

A simplified expression has the type that it had before, and all nodes in it are sound if all were. The
same holds of statements, and of the bodies of loops that are written out: the loop variable is an integer
wherever it is used, and so is the literal that is put in its place.
-/

namespace LemonScript

open List (forall_mem_cons forall_mem_singleton map_map)
open Semantics (isLogic)

/-! ### Operators -/

variable {x : Float} {R : Roster}

namespace Requirement

variable {t : Ty}

theorem eq_of_admits_boolean (h : boolean.admits t) : t = .boolean := by
  cases t with
  | base b => cases b <;> first | rfl | cases h
  | _ => cases h

end Requirement

namespace BinaryOp.Types

variable {op : BinaryOp} {l r type : Ty}

theorem equivalent (h : op.Types l r type) : l.equivalent r := by
  cases op with
  | and | or =>
    rw [Requirement.eq_of_admits_boolean h.1, Requirement.eq_of_admits_boolean h.2.1]
    rfl
  | equal | notEqual => exact h.1
  | other => exact h.elim
  | _ => exact h.2.1

theorem of_arithmetic? {a b n : Int} (h : op.Types l r type) (hn : op.arithmetic? a b = some n) : type = l := by
  cases op <;> first | exact h.2.2 | simp [BinaryOp.arithmetic?] at hn

theorem of_floatArithmetic? {a b : Float} (h : op.Types l r type)
    (hx : Simplify.floatArithmetic? op a b = some x) : type = l := by
  cases op <;> first | exact h.2.2 | simp [Simplify.floatArithmetic?] at hx

theorem of_comparison? {o : Ordering} {b : Bool} (h : op.Types l r type) (hb : op.comparison? o = some b) :
    type = .boolean := by
  cases op <;> first | exact h.2 | exact h.2.2 | simp [BinaryOp.comparison?] at hb

end BinaryOp.Types

namespace Simplify

variable {R : Roster}

structure Fits (R : Roster) (type : Ty) (n : Node) : Prop where
  sound : n.IsSound R
  typeOf : n.typeOf = type

theorem fits_intLit (value : Int) : Fits R .int (.intLit value) :=
  ⟨.of_leaf ⟨trivial, trivial, trivial⟩ rfl, rfl⟩

theorem fits_floatLit (h : x.isFinite) : Fits R .float (.floatLit x) :=
  ⟨.of_leaf ⟨trivial, trivial, h⟩ rfl, rfl⟩

theorem fits_stringLit (value : String) : Fits R .string (.stringLit value) :=
  ⟨.of_leaf ⟨trivial, trivial, trivial⟩ rfl, rfl⟩

theorem fits_ofBool (value : Bool) : Fits R .boolean (.ofBool value) :=
  ⟨.of_leaf ⟨rfl, trivial, rfl⟩ rfl, rfl⟩

section Combine

variable {left right n : Node} {op : BinaryOp} {type : Ty}

theorem fits_binary (h : op.Types left.typeOf right.typeOf type) (hleft : left.IsSound R)
    (hright : right.IsSound R) : Fits R type (.binary left op right type) :=
  ⟨.of_children ⟨h, trivial, trivial⟩ (forall_mem_two hleft hright), rfl⟩

theorem typeOf_of_isLogic (hop : isLogic op) (h : op.Types left.typeOf right.typeOf type) :
    left.typeOf = type ∧ right.typeOf = type := by
  cases op with
  | and | or =>
    obtain ⟨hleft, hright, rfl⟩ := h
    exact ⟨Requirement.eq_of_admits_boolean hleft, Requirement.eq_of_admits_boolean hright⟩
  | _ => cases hop

theorem fits_foldInts {l r : Int} (h : op.Types .int right.typeOf type) (hn : foldInts l op r = some n) :
    Fits R type n := by
  unfold foldInts at hn
  split at hn
  · cases hn
  split at hn
  · next hvalue =>
    cases hn
    rw [h.of_arithmetic? hvalue]
    exact fits_intLit _
  · obtain ⟨b, hb, rfl⟩ := Option.map_eq_some_iff.mp hn
    rw [h.of_comparison? hb]
    exact fits_ofBool b

theorem fits_foldFloats {l r : Float} (h : op.Types .float right.typeOf type) (hn : foldFloats l op r = some n) :
    Fits R type n := by
  unfold foldFloats at hn
  split at hn
  · next hvalue =>
    split at hn
    · cases hn
    · next hfinite =>
      cases hn
      rw [h.of_floatArithmetic? hvalue]
      exact fits_floatLit (Binary64.isFinite_of_not_isInf_or_isNaN (by simpa using hfinite))
  · obtain ⟨o, -, hn⟩ := Option.bind_eq_some_iff.mp hn
    obtain ⟨b, hb, rfl⟩ := Option.map_eq_some_iff.mp hn
    rw [h.of_comparison? hb]
    exact fits_ofBool b

/-- Operands of one operator are both integers or both doubles. -/
theorem fits_foldedNumbers (h : op.Types left.typeOf right.typeOf type) (hn : foldedNumbers left op right = some n) :
    Fits R type n := by
  unfold foldedNumbers at hn
  split at hn
  · next l r =>
    have hints : op.Types .int (Node.intLit r).typeOf type := h
    exact fits_foldInts hints hn
  · cases h.equivalent
  · exact fits_foldFloats h hn
  · exact fits_foldFloats h hn
  · cases hn

theorem fits_foldOther (h : op.Types left.typeOf right.typeOf type) (hn : foldOther left op right = some n) :
    Fits R type n := by
  unfold foldOther at hn
  split at hn
  · cases hn
    rw [h.2.2]
    exact fits_stringLit _
  iterate 4
    cases hn
    rw [h.2]
    exact fits_ofBool _
  · cases hn

theorem typeOf_eq_of_isNumber (hn : isNumber n) {t : Ty} (h : t.equivalent n.typeOf) :
    t = n.typeOf := by
  cases n with
  | intLit | floatLit => cases Ty.standsFor_of_equivalent h rfl; rfl
  | _ => cases hn

theorem fits_oneLike (hn : isNumber n) : Fits R n.typeOf (oneLike n) := by
  cases n with
  | intLit => exact fits_intLit 1
  | floatLit => exact fits_floatLit rfl
  | _ => cases hn

theorem fits_combine (h : op.Types left.typeOf right.typeOf type) (hleft : left.IsSound R)
    (hright : right.IsSound R) : Fits R type (combine left op right type) := by
  have hl (hn : isNumber left) : right.typeOf = left.typeOf := typeOf_eq_of_isNumber hn (Ty.equivalent_symm h.equivalent)
  have hr (hn : isNumber right) : left.typeOf = right.typeOf := typeOf_eq_of_isNumber hn h.equivalent
  have hlaw := law_combine left op right type
  generalize combine left op right type = n at hlaw ⊢
  cases hlaw with
  | unitLeft hop => exact ⟨hright, (typeOf_of_isLogic hop h).2⟩
  | unitRight hop | decided hop => exact ⟨hleft, (typeOf_of_isLogic hop h).1⟩
  | numbers _ hfold => exact fits_foldedNumbers h hfold
  | texts _ hfold => exact fits_foldOther h hfold
  | zeroAdd hzero => exact ⟨hright, (hl (isNumber_of_isZero hzero)).trans h.2.2.symm⟩
  | zeroSub hzero =>
    have hsame := hl (isNumber_of_isZero hzero)
    refine ⟨.of_children ⟨⟨?_, h.2.2.trans hsame.symm⟩, trivial, .inl ⟨trivial, rfl⟩⟩ ?_, rfl⟩
    · rw [hsame]
      exact h.1
    · exact forall_mem_singleton.mpr hright
  | oneMul hone => exact ⟨hright, (hl (isNumber_of_isOne hone)).trans h.2.2.symm⟩
  | zeroMul | zeroDiv | onePow | addZero | subZero | mulOne | divOne => exact ⟨hleft, h.2.2.symm⟩
  | mulZero hzero => exact ⟨hright, (hr (isNumber_of_isZero hzero)).symm.trans h.2.2.symm⟩
  | powZero hzero =>
    have hnumber := isNumber_of_isZero hzero
    rw [h.2.2, hr hnumber]
    exact fits_oneLike hnumber
  | kept => exact fits_binary h hleft hright

end Combine

theorem fits_combineUnary {op : UnaryOp} {operand : Node} {leading : Bool} {type : Ty}
    (h : op.Types operand.typeOf type) (hleading : op.IsSign ∧ leading ∨ op.IsUpdate ∧ leading = false)
    (hoperand : operand.IsSound R) : Fits R type (combineUnary op operand leading type) := by
  unfold combineUnary
  split
  · rw [h.2]
    exact fits_intLit _
  · rw [h.2]
    exact fits_floatLit (Binary64.isFinite_neg hoperand.self.canonical)
  · rw [h.2]
    exact fits_ofBool _
  · exact ⟨.of_children ⟨h, trivial, hleading⟩ (forall_mem_singleton.mpr hoperand), rfl⟩

/-! ### Other nodes -/

end Simplify

namespace Node

section MapChildren

variable {f : Node → Node} {n : Node}
variable {ns ns' : List Node}

@[simp] theorem typeOf_mapChildren : (n.mapChildren f).typeOf = n.typeOf := by cases n <;> rfl

theorem Alike.congr (h : Alike ns) (heq : ns'.map typeOf = ns.map typeOf) : Alike ns' := by
  cases ns with
  | nil =>
    cases ns' with
    | nil => trivial
    | cons => cases heq
  | cons n ns =>
    cases ns' with
    | nil => trivial
    | cons =>
      obtain ⟨hhead, htail⟩ := List.cons.inj heq
      have hall : ∀ t ∈ ns.map typeOf, t.equivalent n.typeOf = true := List.forall_mem_map.mpr h
      rw [← htail, ← hhead] at hall
      exact List.forall_mem_map.mp hall

theorem arrayType_congr (heq : ns.map typeOf = ns'.map typeOf) : arrayType ns = arrayType ns' := by
  cases ns with
  | nil =>
    cases ns' with
    | nil => rfl
    | cons => cases heq
  | cons =>
    cases ns' with
    | nil => cases heq
    | cons => exact congrArg Ty.array (List.cons.inj heq).1

theorem map_typeOf_map (h : ∀ c ∈ ns, (f c).typeOf = c.typeOf) :
    (ns.map f).map typeOf = ns.map typeOf := by
  rw [map_map]
  exact List.map_congr_left h

theorem Obeys.mapChildren (h : n.Obeys) (hf : ∀ c ∈ n.children, (f c).typeOf = c.typeOf) :
    (n.mapChildren f).Obeys := by
  cases n with
  | call _ args =>
    obtain ⟨hcallee, hargs⟩ := forall_mem_cons.mp hf
    obtain ⟨params, htype, hparams⟩ := h
    have hparams : List.Forall₂ (fun t' t => t'.assignable t = true) ((args.getD []).map typeOf) params :=
      List.forall₂_map_left_iff.mpr hparams
    rw [← map_typeOf_map hargs, ← getD_map_map, List.forall₂_map_left_iff] at hparams
    exact ⟨params, hcallee.trans htype, hparams⟩
  | binary =>
    obtain ⟨hleft, hright⟩ := forall_mem_cons.mp hf
    simp only [Node.mapChildren, Obeys, hleft, forall_mem_singleton.mp hright]
    exact h
  | unary =>
    simp only [Node.mapChildren, Obeys, forall_mem_singleton.mp hf]
    exact h
  | arrayLit =>
    have heq := map_typeOf_map hf
    simp only [Node.mapChildren, Obeys, getD_map_map]
    exact ⟨h.1.congr heq, h.2.trans (arrayType_congr heq.symm)⟩
  | mapLit entries =>
    have hentries : ∀ e ∈ entries, (f e.key).typeOf = e.key.typeOf ∧ (f e.value).typeOf = e.value.typeOf := by
      intro e he
      exact ⟨hf _ (List.mem_flatMap.mpr ⟨e, he, .head _⟩), hf _ (List.mem_flatMap.mpr ⟨e, he, .tail _ (.head _)⟩)⟩
    simp only [Node.mapChildren, Obeys, map_map]
    refine ⟨h.1.congr ?_, h.2.1.congr ?_, h.2.2.trans ?_⟩
    · rw [map_map, map_map]
      exact List.map_congr_left fun e he => (hentries e he).1
    · rw [map_map, map_map]
      exact List.map_congr_left fun e he => (hentries e he).2
    · cases entries with
      | nil => rfl
      | cons e =>
        simp only [mapType, List.map_cons, (hentries e (.head _)).1, (hentries e (.head _)).2]
  | member => exact (forall_mem_singleton.mp hf).trans h
  | property =>
    obtain ⟨hmap, hkey⟩ := forall_mem_cons.mp hf
    obtain ⟨keyType, htype, hequivalent⟩ := h
    exact ⟨keyType, hmap.trans htype, by rw [forall_mem_singleton.mp hkey]; exact hequivalent⟩
  | boolLit => exact h
  | _ => trivial

theorem Known.mapChildren (h : n.Known R) : (n.mapChildren f).Known R := by
  cases n <;> exact h

theorem Canonical.mapChildren (h : n.Canonical) : (n.mapChildren f).Canonical := by
  cases n with
  | call _ args => cases args <;> exact h
  | arrayLit elements => cases elements <;> exact h
  | _ => exact h

end MapChildren

end Node

namespace Simplify

variable {R : Roster}
variable {n : Node}

theorem fits_mapChildren {f : Node → Node} (h : n.IsSound R)
    (hf : ∀ c ∈ n.children, Fits R c.typeOf (f c)) : Fits R n.typeOf (n.mapChildren f) := by
  refine ⟨?_, Node.typeOf_mapChildren⟩
  cases hopen : n.isOpen with
  | false =>
    rw [Node.mapChildren_of_not_isOpen hopen]
    exact h
  | true =>
    have hself := h.self
    refine .of_children ⟨hself.obeys.mapChildren fun c hc => (hf c hc).typeOf, hself.known.mapChildren,
      hself.canonical.mapChildren⟩ ?_
    rw [Node.children_mapChildren hopen]
    exact List.forall_mem_map.mpr fun c hc => (hf c hc).sound

theorem fits_simpler (h : n.IsSound R) : Fits R n.typeOf (simpler n) := by
  induction n with
  | h n ih =>
  replace ih := fun c hc => ih c hc (h.children c hc)
  cases n with
  | binary left op right type =>
    have hleft := ih left (.head _)
    have hright := ih right (.tail _ (.head _))
    have htypes : op.Types left.typeOf right.typeOf type := h.self.obeys
    have hcombine : Fits R type (combine (simpler left) op (simpler right) type) :=
      fits_combine (by rw [hleft.typeOf, hright.typeOf]; exact htypes) hleft.sound hright.sound
    have hupdate : Fits R type (.binary left op (simpler right) type) :=
      fits_binary (by rw [hright.typeOf]; exact htypes) (h.children left (.head _)) hright.sound
    cases op <;> first | exact hcombine | exact hupdate
  | unary op operand _ type =>
    have hoperand := ih operand (.head _)
    have htypes : op.Types operand.typeOf type := h.self.obeys
    exact fits_combineUnary (by rw [hoperand.typeOf]; exact htypes) h.self.canonical hoperand.sound
  | call | arrayLit =>
    simp only [simpler, simplerOptional_eq_map]
    exact fits_mapChildren h ih
  | mapLit =>
    simp only [simpler, simplerEntries_eq_map]
    exact fits_mapChildren h ih
  | member | property => exact fits_mapChildren h ih
  | _ => exact ⟨h, rfl⟩

/-! ### Copies of loop bodies -/

theorem fits_put {v : Variable} (hv : R.Has (.var v)) (hint : v.type = .int) (value : Int)
    (h : n.IsSound R) : Fits R n.typeOf (put v.id value n) := by
  induction n with
  | h n ih =>
  by_cases hvar : ∃ w, n = .var w
  · obtain ⟨w, rfl⟩ := hvar
    unfold put
    split
    · next hid =>
      have hsame : Entity.var w = Entity.var v := R.unique h.self.known hv (beq_iff_eq.mp hid)
      cases hsame
      rw [show (Node.var v).typeOf = .int from hint]
      exact fits_intLit value
    · exact ⟨h, rfl⟩
  · rw [put_eq_mapChildren v.id value fun w hw => hvar ⟨w, hw⟩]
    exact fits_mapChildren h fun c hc => ih c hc (h.children c hc)

abbrev AreSound (R : Roster) (ns : List Node) : Prop := ∀ n ∈ ns, n.IsSound R

theorem sound_assign {target source : Node} (htarget : target.IsSound R) (hsource : source.IsSound R) :
    AreSound R ((assign target source).getD []) := by
  unfold assign
  split
  · exact List.forall_mem_nil _
  · refine forall_mem_singleton.mpr (.of_children ⟨trivial, trivial, trivial⟩ ?_)
    exact forall_mem_two htarget hsource

theorem sound_plain (h : n.IsSound R) : AreSound R ((plain n).getD []) := by
  have hcompound {left right : Node} {op : BinaryOp} {type : Ty} (hleft : left.IsSound R)
      (hright : right.IsSound R) (htypes : op.Types left.typeOf right.typeOf type) :
      AreSound R ((assign (simpler left) (combine (simpler left) op (simpler right) type)).getD []) := by
    have hleft := fits_simpler hleft
    have hright := fits_simpler hright
    rw [← hleft.typeOf, ← hright.typeOf] at htypes
    exact sound_assign hleft.sound (fits_combine htypes hleft.sound hright.sound).sound
  unfold plain
  split
  · have hinit := fits_simpler (h.children _ (.head _))
    exact forall_mem_singleton.mpr (.of_children ⟨trivial, trivial, trivial⟩
      (forall_mem_singleton.mpr hinit.sound))
  · exact sound_assign (fits_simpler (h.children _ (.head _))).sound
      (fits_simpler (h.children _ (.tail _ (.head _)))).sound
  · have hvalue := fits_simpler (h.children _ (.head _))
    exact forall_mem_singleton.mpr (.of_children ⟨trivial, trivial, trivial⟩
      (forall_mem_singleton.mpr hvalue.sound))
  -- A compound assignment obeys the rule of its operator.
  · exact hcompound (h.children _ (.head _)) (h.children _ (.tail _ (.head _))) h.self.obeys
  · exact hcompound (h.children _ (.head _)) (h.children _ (.tail _ (.head _))) h.self.obeys
  · exact forall_mem_singleton.mpr (fits_simpler h).sound

/-! ### Statements -/

theorem kept_isSound : Kept (Node.IsSound R) where
  simpler h := (fits_simpler h).sound
  plain := sound_plain
  put hloop value _ h := (fits_put (hloop.self.known _ rfl).1 (hloop.self.known _ rfl).2 value h).sound
  part _ h := h.children
  whole hrebuilt h hchildren := by
    refine .of_children ⟨?_, ?_, ?_⟩ hchildren
    · cases hrebuilt <;> trivial
    · cases hrebuilt <;> exact h.self.known
    · cases hrebuilt <;> trivial

end Simplify

/-- A simplified program is sound if it was. -/
theorem Program.isSound_simpler {p : Program} (h : p.node.IsSound R) (o : SimplifyOptions) :
    (p.simpler o).node.IsSound R :=
  .of_children ⟨trivial, trivial, trivial⟩
    (Simplify.kept_isSound.block h.children)

end LemonScript
