import Mathlib.Data.List.Forall2
import LemonScript.Proofs.Syntax.Parts
import LemonScript.Typing.Analysis
/-!
# The typing rules

Every form of node has a typing rule: what the types of the nodes directly in it have to be like, and
which type it has itself. All parts of a program that was analyzed obey the rules.
-/

namespace LemonScript

open Requirement (boolean)
open List (forall_mem_append forall_mem_cons forall_mem_nil forall_mem_singleton)

variable {n : Node}

namespace BinaryOp

/-- The operator takes operands of the first two types and gives a value of the third one. -/
def Types (op : BinaryOp) (left right type : Ty) : Prop :=
  match op with
  | .and | .or => boolean.admits left ∧ boolean.admits right ∧ type = .boolean
  | .add | .addAssign => Requirement.numberOrString.admits left ∧ left.equivalent right ∧ type = left
  | .sub | .mul | .div | .mod | .pow | .subAssign =>
    Requirement.number.admits left ∧ left.equivalent right ∧ type = left
  | .less | .lessEq | .greater | .greaterEq =>
    Requirement.numberOrString.admits left ∧ left.equivalent right ∧ type = .boolean
  | .equal | .notEqual => left.equivalent right ∧ type = .boolean
  | .other _ => False

end BinaryOp

def UnaryOp.Types (op : UnaryOp) (operand type : Ty) : Prop :=
  match op with
  | .not => boolean.admits operand ∧ type = .boolean
  | .neg | .increment | .decrement | .other _ => Requirement.number.admits operand ∧ type = operand

namespace Node

def isFunDecl : Node → Bool
  | .funDecl .. => true
  | _ => false

/-- Running a node may give back the value of `v`; what the functions that are declared in it give back
does not count. -/
inductive Returns : Node → Node → Prop
  | here (v : Node) : Returns (.giveBack v) v
  | child {c n v : Node} (hc : c ∈ n.children) (hn : n.isFunDecl = false) (h : Returns c v) : Returns n v

def Alike : List Node → Prop
  | [] => True
  | first :: rest => ∀ n ∈ rest, n.typeOf.equivalent first.typeOf

def arrayType : List Node → Ty
  | [] => .emptyArray
  | first :: _ => .array first.typeOf

def mapType : List (Entry Node) → Ty
  | [] => .emptyMap
  | first :: _ => .map first.key.typeOf first.value.typeOf

def Typed : Node → Prop
  | .varDecl type _ init _ _ entity =>
    (∃ v, entity = some v ∧ v.type = type) ∧ (init = .missing ∨ type.equivalent init.typeOf)
  | .assign target source => source.typeOf.assignable target.typeOf
  | .funDecl _ _ result params body entity =>
    (∃ f, entity = some f ∧ f.ty = .func ((params.getD []).map (·.type)) result) ∧
      ∀ n ∈ body.getD [], ∀ v, Returns n v → v.typeOf.assignable result
  | .call callee args type =>
    ∃ params, callee.typeOf = .func params type ∧
      List.Forall₂ (fun arg t => arg.typeOf.assignable t) (args.getD []) params
  | .ifElse cases _ => ∀ c ∈ cases, boolean.admits c.guard.typeOf
  | .whileLoop condition _ => boolean.admits condition.typeOf
  | .forLoop _ init condition _ _ entity =>
    (∃ v, entity = some v ∧ v.type = .int) ∧ Requirement.integer.admits init.typeOf ∧
      boolean.admits condition.typeOf
  | .switch scrutinee cases _ => ∀ c ∈ cases, c.guard.typeOf.equivalent scrutinee.typeOf
  | .binary left op right type => op.Types left.typeOf right.typeOf type
  | .unary op operand _ type => op.Types operand.typeOf type
  | .arrayLit elements type => Alike (elements.getD []) ∧ type = arrayType (elements.getD [])
  | .mapLit entries type =>
    Alike (entries.map (·.key)) ∧ Alike (entries.map (·.value)) ∧
      Analysis.distinct ((entries.map (·.key)).filterMap Analysis.keyPrint?) ∧ type = mapType entries
  | .member array _ type => array.typeOf = .array type
  | .property map key type => ∃ keyType, map.typeOf = .map keyType type ∧ key.typeOf.equivalent keyType
  | .boolLit _ _ type => type = .boolean
  | _ => True

def WellTyped (n : Node) : Prop := ∀ m, PartOf m n → m.Typed

theorem WellTyped.of_children (hn : n.Typed) (h : ∀ c ∈ n.children, c.WellTyped) :
    n.WellTyped := forall_partOf hn h

end Node

namespace Analysis

variable {α β : Type} {here : Surroundings}

/-- Whatever the step gives has `P`. -/
def Yields (m : Analysis α) (P : α → Prop) : Prop := ∀ s a s', m s = .ok (a, s') → P a

variable {m : Analysis α} {P : α → Prop} {name : String} {isStatic : Bool}
  {body : Option (List Node)} {type : Ty}
variable {t : Ty} {init : Node} {entity : Option Variable}

theorem Yields.bind {f : α → Analysis β} {Q : β → Prop} (hm : Yields m P)
    (hf : ∀ a, P a → Yields (f a) Q) : Yields (m >>= f) Q := by
  intro s b s' h
  change Except.bind (m s) (fun p => f p.1 p.2) = .ok (b, s') at h
  cases hms : m s with
  | ok p =>
    rw [hms] at h
    exact hf p.1 (hm s p.1 p.2 hms) p.2 b s' h
  | error e =>
    rw [hms] at h
    cases h

theorem Yields.imp {Q : α → Prop} (h : Yields m P) (hPQ : ∀ a, P a → Q a) :
    Yields m Q := fun s a s' hm => hPQ a (h s a s' hm)

theorem Yields.any (m : Analysis α) : Yields m fun _ => True := fun _ _ _ _ => trivial

theorem yields_pure {a : α} (h : P a) : Yields (pure a) P := by
  rintro s b s' heq
  cases heq
  exact h

theorem yields_reject {e : SemanticError} : Yields (reject e) P := nofun

theorem yields_fault {f : Fault} : Yields (fault f) P := nofun

theorem yields_require (condition : Bool) (e : SemanticError) :
    Yields (require condition e) fun _ => condition := by
  unfold require
  split
  · next h => exact yields_pure h
  · exact yields_reject

theorem Yields.inBlock (h : Yields m P) : Yields (inBlock m) P := by
  refine (Yields.any _).bind fun _ _ => h.bind fun a ha => ?_
  exact (Yields.any _).bind fun _ _ => yields_pure ha

/-! ### Checks -/

theorem yields_binaryType (left : Node) (op : BinaryOp) (right : Node) :
    Yields (binaryType left op right) (op.Types left.typeOf right.typeOf) := by
  cases op with
  | other => exact yields_fault
  | equal | notEqual => exact (yields_require _ _).bind fun _ hsame => yields_pure ⟨hsame, rfl⟩
  | _ =>
    exact (yields_require _ _).bind fun _ hleft => (yields_require _ _).bind fun _ hright =>
      yields_pure ⟨hleft, hright, rfl⟩

theorem yields_unaryType (op : UnaryOp) (operand : Node) :
    Yields (unaryType op operand) (op.Types operand.typeOf) := by
  cases op with
  | increment | decrement =>
    exact (yields_require _ _).bind fun _ h => (Yields.any _).bind fun _ _ => yields_pure ⟨h, rfl⟩
  | _ => exact (yields_require _ _).bind fun _ h => yields_pure ⟨h, rfl⟩

theorem yields_uniform (part : LiteralPart) (ns : List Node) :
    Yields (uniform part ns) fun _ => Node.Alike ns := by
  cases ns with
  | nil => exact yields_pure trivial
  | cons => exact (yields_require _ _).imp fun _ h => List.all_eq_true.mp h

theorem yields_argumentsFit : ∀ (args : List Node) (ts : List Ty), args.length = ts.length →
    Yields (argumentsFit args ts) fun _ =>
      List.Forall₂ (fun arg t => arg.typeOf.assignable t) args ts
  | [], [], _ => yields_pure .nil
  | _ :: args, _ :: ts, h =>
    (yields_require _ _).bind fun _ harg =>
      (yields_argumentsFit args ts (Nat.succ.inj h)).imp fun _ hargs => .cons harg hargs

/-! ### Nodes -/

/-- What is known of a node when it was analyzed in a function with a result type, or outside functions:
its parts obey the typing rules, and what it gives back fits the result type. -/
structure Fits (result : Option Ty) (n : Node) : Prop where
  wellTyped : n.WellTyped
  returns : ∀ v, n.Returns v → ∃ t, result = some t ∧ v.typeOf.assignable t

variable {result : Option Ty}

theorem Fits.of_children (hn : n.Typed) (hvalue : ∀ v, n ≠ .giveBack v)
    (h : ∀ c ∈ n.children, Fits result c) : Fits result n := by
  refine ⟨.of_children hn fun c hc => (h c hc).wellTyped, fun v hv => ?_⟩
  cases hv with
  | here _ => exact absurd rfl (hvalue v)
  | child hc _ hv => exact (h _ hc).returns v hv

theorem Fits.of_leaf (hn : n.Typed) (hvalue : ∀ v, n ≠ .giveBack v) (h : n.children = []) :
    Fits result n :=
  .of_children hn hvalue (by rw [h]; exact forall_mem_nil _)

theorem Fits.giveBack {v : Node} (h : Fits (some t) v) (hv : v.typeOf.assignable t) :
    Fits (some t) (.giveBack v) := by
  refine ⟨.of_children trivial (forall_mem_singleton.mpr h.wellTyped), fun w hw => ?_⟩
  cases hw with
  | here _ => exact ⟨t, rfl, hv⟩
  | child hc _ hw =>
    obtain rfl := List.mem_singleton.mp hc
    exact h.returns w hw

theorem Fits.funDecl {params : List Parameter} {f : Function}
    (hf : f.ty = .func (params.map (·.type)) t) (h : ∀ c ∈ body.getD [], Fits (some t) c) :
    Fits result (.funDecl name isStatic t (some params) body (some f)) := by
  refine ⟨.of_children ⟨⟨f, rfl, hf⟩, fun c hc v hv => ?_⟩ fun c hc => (h c hc).wellTyped, ?_⟩
  · obtain ⟨_, ht, hassignable⟩ := (h c hc).returns v hv
    cases ht
    exact hassignable
  · intro v hv
    cases hv with
    | child _ hn _ => cases hn

def Fitting (n : Node) : Prop := ∀ here : Surroundings, Yields (node here n) (Fits here.result)

theorem yields_nodes : ∀ {ns : List Node}, (∀ n ∈ ns, Fitting n) →
    Yields (nodes here ns) fun ns => ∀ n ∈ ns, Fits here.result n
  | [], _ => by
    rw [nodes]
    exact yields_pure (forall_mem_nil _)
  | n :: ns, h => by
    rw [forall_mem_cons] at h
    rw [nodes]
    refine (h.1 here).bind fun n hn => (yields_nodes h.2).bind fun ns hns => yields_pure ?_
    exact forall_mem_cons.mpr ⟨hn, hns⟩

theorem yields_block {ns : Option (List Node)} (h : ∀ n ∈ ns.getD [], Fitting n) :
    Yields (block here ns) fun ns => ∀ n ∈ ns.getD [], Fits here.result n := by
  cases ns with
  | none =>
    rw [block]
    exact yields_pure (forall_mem_nil _)
  | some ns =>
    rw [block]
    exact (yields_nodes h).bind fun ns hns => yields_pure hns

theorem yields_ifCases : ∀ {arms : List (Arm Node)}, (∀ n ∈ arms.flatMap Arm.children, Fitting n) →
    Yields (ifCases here arms) fun arms => (∀ n ∈ arms.flatMap Arm.children, Fits here.result n) ∧
      ∀ a ∈ arms, boolean.admits a.guard.typeOf
  | [], _ => by
    rw [ifCases]
    exact yields_pure ⟨forall_mem_nil _, forall_mem_nil _⟩
  | ⟨guard, body⟩ :: rest, h => by
    obtain ⟨hguard, hbody, hrest⟩ := Node.forall_mem_armChildren.mp h
    rw [ifCases]
    refine (hguard here).bind fun guard hguard => (yields_require _ _).bind fun _ hboolean => ?_
    refine (yields_block hbody).inBlock.bind fun body hbody => ?_
    refine (yields_ifCases hrest).bind fun rest hrest => yields_pure ⟨?_, ?_⟩
    · exact Node.forall_mem_armChildren.mpr ⟨hguard, hbody, hrest.1⟩
    · exact forall_mem_cons.mpr ⟨hboolean, hrest.2⟩

theorem yields_switchCases : ∀ {arms : List (Arm Node)}, (∀ n ∈ arms.flatMap Arm.children, Fitting n) →
    Yields (switchCases here arms) fun arms => ∀ n ∈ arms.flatMap Arm.children, Fits here.result n
  | [], _ => by
    rw [switchCases]
    exact yields_pure (forall_mem_nil _)
  | ⟨guard, body⟩ :: rest, h => by
    obtain ⟨hguard, hbody, hrest⟩ := Node.forall_mem_armChildren.mp h
    rw [switchCases]
    refine (hguard here).bind fun guard hguard => (yields_block hbody).inBlock.bind fun body hbody => ?_
    refine (yields_switchCases hrest).bind fun rest hrest => yields_pure ?_
    exact Node.forall_mem_armChildren.mpr ⟨hguard, hbody, hrest⟩

theorem yields_mapEntries : ∀ {entries : List (Entry Node)},
    (∀ n ∈ entries.flatMap Entry.children, Fitting n) →
      Yields (mapEntries here entries) fun entries =>
        ∀ n ∈ entries.flatMap Entry.children, Fits here.result n
  | [], _ => by
    rw [mapEntries]
    exact yields_pure (forall_mem_nil _)
  | ⟨key, value⟩ :: rest, h => by
    rw [List.flatMap_cons, forall_mem_append] at h
    rw [mapEntries]
    refine (h.1 key (by simp [Entry.children]) here).bind fun key hkey => ?_
    refine (h.1 value (by simp [Entry.children]) here).bind fun value hvalue => ?_
    refine (yields_mapEntries h.2).bind fun rest hrest => yields_pure ?_
    rw [List.flatMap_cons, forall_mem_append]
    exact ⟨forall_mem_two hkey hvalue, hrest⟩

theorem yields_arrayLiteral {ns : List Node} (h : ∀ n ∈ ns, Fits result n) :
    Yields (arrayLiteral ns) (Fits result) := by
  cases ns with
  | nil => exact yields_pure (.of_leaf ⟨trivial, rfl⟩ (by simp) rfl)
  | cons =>
    exact (yields_uniform _ _).bind fun _ halike => yields_pure (.of_children ⟨halike, rfl⟩ (by simp) h)

theorem yields_mapLiteral {entries : List (Entry Node)}
    (h : ∀ n ∈ entries.flatMap Entry.children, Fits result n) :
    Yields (mapLiteral entries) (Fits result) := by
  cases entries with
  | nil => exact yields_pure (.of_leaf ⟨trivial, trivial, rfl, rfl⟩ (by simp) rfl)
  | cons =>
    refine (yields_uniform _ _).bind fun _ hkeys => (yields_uniform _ _).bind fun _ hvalues => ?_
    refine (yields_require _ _).bind fun _ hdistinct => yields_pure ?_
    exact .of_children ⟨hkeys, hvalues, hdistinct, rfl⟩ (by simp) h

theorem fitting_call {callee : Node} {args : Option (List Node)} (hcallee : Fitting callee)
    (hargs : ∀ n ∈ args.getD [], Fitting n) : Fitting (.call callee args type) := by
  intro here
  rw [node]
  refine (hcallee here).bind fun callee hcallee => ?_
  refine Yields.bind (P := fun signature => callee.typeOf = signature.ty) ?_ fun signature hsignature => ?_
  · unfold calleeSignature
    split
    · next heq => exact yields_pure heq
    · exact yields_reject
  · refine (yields_block hargs).bind fun args hargs => (yields_require _ _).bind fun _ hlength => ?_
    refine (yields_argumentsFit _ _ (beq_iff_eq.mp hlength)).bind fun _ hfit => yields_pure ?_
    exact .of_children ⟨signature.params, hsignature, hfit⟩ (by simp)
      (forall_mem_cons.mpr ⟨hcallee, hargs⟩)

theorem yields_variable {init : Option Node} (isConst isStatic : Bool)
    (hinit : ∀ n ∈ init.toList, Fits result n) : Yields (do
      let type ← resolve type
      let v ← newVariable name isConst type
      match init with
      | some init => sameType (.var v) init
      | none => pure ()
      declare name (.var v)
      return .varDecl type name (init.getD .missing) isConst isStatic (some v)) (Fits result) := by
  refine (Yields.any _).bind fun type _ => ?_
  refine Yields.bind (P := fun v => v.type = type) ?_ fun v hv => ?_
  · exact (Yields.any _).bind fun id _ => yields_pure rfl
  cases init with
  | none =>
    exact (Yields.any _).bind fun _ _ => yields_pure (.of_children ⟨⟨v, rfl, hv⟩, .inl rfl⟩ (by simp)
      (forall_mem_singleton.mpr (.of_leaf trivial (by simp) rfl)))
  | some n =>
    refine (yields_require _ _).bind fun _ hsame => (Yields.any _).bind fun _ _ => yields_pure ?_
    exact .of_children ⟨⟨v, rfl, hv⟩, .inr (hv ▸ hsame)⟩ (by simp) hinit

theorem fitting_varDecl {isConst : Bool} (hinit : Fitting init) :
    Fitting (.varDecl type name init isConst isStatic entity) := by
  intro here
  rw [node]
  split
  · refine (yields_pure (P := (· = none)) rfl).bind fun init hnone => ?_
    exact yields_variable isConst isStatic (by rw [hnone]; exact forall_mem_nil _)
  · rw [bind_map_left]
    refine (hinit here).bind fun n hn => ?_
    have hn : ∀ m ∈ (some n).toList, Fits _ m := forall_mem_singleton.mpr hn
    exact yields_variable isConst isStatic hn

theorem fitting_funDecl {params : Option (List Parameter)} {entity : Option Function}
    (hbody : ∀ n ∈ body.getD [], Fitting n) :
    Fitting (.funDecl name isStatic type params body entity) := by
  intro here
  rw [node]
  refine (Yields.any _).bind fun type _ => (Yields.any _).bind fun id _ => ?_
  refine (Yields.any _).bind fun _ _ => (Yields.any _).bind fun _ _ => ?_
  refine (Yields.any _).bind fun params _ => (Yields.any _).bind fun _ _ => ?_
  refine (yields_block hbody).bind fun body hbody => (Yields.any _).bind fun _ _ => yields_pure ?_
  exact .funDecl rfl hbody

theorem fitting_forLoop {condition step : Node} (hinit : Fitting init)
    (hcondition : Fitting condition) (hstep : Fitting step) (hbody : ∀ n ∈ body.getD [], Fitting n) :
    Fitting (.forLoop name init condition step body entity) := by
  intro here
  rw [node]
  refine (hinit here).bind fun init hinit => (yields_require _ _).bind fun _ hint => Yields.inBlock ?_
  refine Yields.bind (P := fun v => v.type = .int) ?_ fun v hv => ?_
  · exact (Yields.any _).bind fun id _ => yields_pure rfl
  refine (Yields.any _).bind fun _ _ => (hcondition _).bind fun condition hcondition => ?_
  refine (yields_require _ _).bind fun _ hboolean => (hstep _).bind fun step hstep => ?_
  refine (yields_block hbody).bind fun body hbody => yields_pure ?_
  refine .of_children ⟨⟨v, rfl, hv⟩, hint, hboolean⟩ (by simp) ?_
  simp only [Node.children, forall_mem_cons]
  exact ⟨hinit, hcondition, hstep, hbody⟩

theorem yields_identifier (name : String) : Yields (identifier name) (Fits result) := by
  refine (Yields.any _).bind fun m _ => ?_
  cases m with
  | var v => exact yields_pure (.of_leaf trivial (by simp) rfl)
  | fn f =>
    dsimp only
    split
    · exact yields_fault
    · exact yields_pure (.of_leaf trivial (by simp) rfl)
  | type t => exact yields_reject

/-- Whatever analysis makes of a node obeys the typing rules. -/
theorem fitting (n : Node) : Fitting n := by
  induction n with
  | h n ih =>
  intro here
  cases n with
  | varDecl => exact fitting_varDecl (ih _ (.head _)) here
  | funDecl => exact fitting_funDecl ih here
  | call => exact fitting_call (ih _ (.head _)) (fun n hn => ih n (.tail _ hn)) here
  | forLoop =>
    refine fitting_forLoop (ih _ (.head _)) (ih _ (.tail _ (.head _))) (ih _ (.tail _ (.tail _ (.head _)))) ?_ here
    exact fun n hn => ih n (.tail _ (.tail _ (.tail _ hn)))
  | assign target source =>
    rw [node]
    refine (ih source (.tail _ (.head _)) here).bind fun source hsource => ?_
    refine (ih target (.head _) here).bind fun target htarget => ?_
    refine (yields_require _ _).bind fun _ hassignable => (Yields.any _).bind fun _ _ => yields_pure ?_
    exact .of_children hassignable (by simp) (forall_mem_two htarget hsource)
  | ifElse cases otherwise =>
    obtain ⟨hcases, hotherwise⟩ := forall_mem_append.mp ih
    rw [node]
    refine (yields_ifCases hcases).bind fun cases hcases => ?_
    refine (yields_block hotherwise).inBlock.bind fun otherwise hotherwise => yields_pure ?_
    exact .of_children hcases.2 (by simp) (forall_mem_append.mpr ⟨hcases.1, hotherwise⟩)
  | whileLoop condition body =>
    obtain ⟨hcondition, hbody⟩ := forall_mem_cons.mp ih
    rw [node]
    refine (hcondition here).bind fun condition hcondition => (yields_require _ _).bind fun _ hboolean => ?_
    refine (yields_block hbody).inBlock.bind fun body hbody => yields_pure ?_
    exact .of_children hboolean (by simp) (forall_mem_cons.mpr ⟨hcondition, hbody⟩)
  | switch scrutinee cases default =>
    obtain ⟨hscrutinee, hrest⟩ := forall_mem_cons.mp ih
    obtain ⟨hcases, hdefault⟩ := forall_mem_append.mp hrest
    rw [node]
    refine (hscrutinee here).bind fun scrutinee hscrutinee => ?_
    refine (yields_switchCases hcases).bind fun cases hcases => (yields_require _ _).bind fun _ halike => ?_
    refine (yields_block hdefault).inBlock.bind fun default hdefault => yields_pure ?_
    exact .of_children (List.all_eq_true.mp halike) (by simp)
      (forall_mem_cons.mpr ⟨hscrutinee, forall_mem_append.mpr ⟨hcases, hdefault⟩⟩)
  | giveBack value =>
    rw [node]
    split
    · exact yields_reject
    · exact yields_reject
    · next t hresult =>
      refine (ih value (.head _) here).bind fun value hvalue => (yields_require _ _).bind fun _ hfits => ?_
      rw [hresult] at hvalue ⊢
      exact yields_pure (hvalue.giveBack hfits)
  | giveBackNothing =>
    rw [node]
    split
    · exact yields_reject
    · exact yields_pure (.of_leaf trivial (by simp) rfl)
    · exact yields_reject
  | chop | next =>
    rw [node]
    exact (Yields.any _).bind fun _ _ => yields_pure (.of_leaf trivial (by simp) rfl)
  | binary left op right _ =>
    rw [node]
    refine (ih left (.head _) here).bind fun left hleft => ?_
    refine (ih right (.tail _ (.head _)) here).bind fun right hright => ?_
    refine (yields_binaryType left op right).bind fun type htype => (Yields.any _).bind fun _ _ => ?_
    exact yields_pure (.of_children htype (by simp)
      (forall_mem_two hleft hright))
  | unary op operand =>
    rw [node]
    refine (ih operand (.head _) here).bind fun operand hoperand => ?_
    refine (yields_unaryType op operand).bind fun type htype => ?_
    exact yields_pure (.of_children htype (by simp) (forall_mem_singleton.mpr hoperand))
  | arrayLit elements _ =>
    rw [node]
    exact (yields_block ih).bind fun elements helements => yields_arrayLiteral helements
  | mapLit entries _ =>
    rw [node]
    exact (yields_mapEntries ih).bind fun entries hentries => yields_mapLiteral hentries
  | member array =>
    rw [node]
    refine (ih array (.head _) here).bind fun array harray => ?_
    split
    · next htype =>
      exact yields_pure (.of_children htype (by simp) (forall_mem_singleton.mpr harray))
    · exact yields_fault
    · exact yields_reject
  | property map key _ =>
    rw [node]
    refine (ih map (.head _) here).bind fun map hmap => ?_
    split
    · next keyType valueType htype =>
      refine (ih key (.tail _ (.head _)) here).bind fun key hkey => (yields_require _ _).bind fun _ hfits => ?_
      exact yields_pure (.of_children ⟨keyType, htype, hfits⟩ (by simp)
        (forall_mem_two hmap hkey))
    · exact yields_reject
  | ident name =>
    rw [node]
    exact yields_identifier name
  | boolLit | intLit | floatLit | stringLit | var | fn =>
    rw [node]
    exact yields_pure (.of_leaf (by simp [Node.Typed]) (by simp) rfl)
  | classDecl =>
    rw [node]
    exact yields_reject
  | missing | program | importing | parameter | ifCase | switchCase | entry =>
    rw [node]
    exact yields_fault

end Analysis

/-- All parts of an analyzed program obey the typing rules. -/
theorem Program.wellTyped_of_analyze {p q : Program} (h : p.analyze = .ok q) : q.node.WellTyped := by
  unfold Program.analyze at h
  simp only [StateT.run] at h
  cases hblock : Analysis.block ⟨false, none⟩ p.statements Scope.initial with
  | error e =>
    rw [hblock] at h
    cases h
  | ok r =>
    rw [hblock] at h
    cases h
    have hfits := Analysis.yields_block (fun n _ => Analysis.fitting n) _ _ _ hblock
    exact .of_children trivial fun c hc => (hfits c hc).wellTyped

end LemonScript
