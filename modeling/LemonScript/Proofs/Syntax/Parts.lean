import LemonScript.Proofs.Syntax.Every
/-!
# Parts of a tree

The children of a node are the nodes directly in it. What holds of a node as soon as it holds of its
children holds of all nodes, and the parts of a node are itself and the parts of its children.
-/

namespace LemonScript

open List (forall_mem_append forall_mem_cons forall_mem_nil)

theorem forall_mem_two {α : Type} {P : α → Prop} {a b : α} (ha : P a) (hb : P b) : ∀ x ∈ [a, b], P x :=
  forall_mem_cons.mpr ⟨ha, List.forall_mem_singleton.mpr hb⟩

def Arm.children (a : Arm Node) : List Node := a.guard :: a.body.getD []

def Entry.children (e : Entry Node) : List Node := [e.key, e.value]

namespace Node

def children : Node → List Node
  | .program _ statements => statements.getD []
  | .classDecl _ _ _ plant body => plant.getD [] ++ body.getD []
  | .varDecl _ _ init _ _ _ => [init]
  | .assign target source => [target, source]
  | .funDecl _ _ _ _ body _ => body.getD []
  | .call callee args _ => callee :: args.getD []
  | .ifElse cases otherwise => cases.flatMap Arm.children ++ otherwise.getD []
  | .ifCase arm => arm.children
  | .whileLoop condition body => condition :: body.getD []
  | .forLoop _ init condition step body _ => init :: condition :: step :: body.getD []
  | .switch scrutinee cases default => scrutinee :: (cases.flatMap Arm.children ++ default.getD [])
  | .switchCase arm => arm.children
  | .giveBack value => [value]
  | .binary left _ right _ => [left, right]
  | .unary _ operand _ _ => [operand]
  | .arrayLit elements _ => elements.getD []
  | .mapLit entries _ => entries.flatMap Entry.children
  | .entry pair => pair.children
  | .member array _ _ => [array]
  | .property map key _ => [map, key]
  | _ => []

variable {P : Node → Prop} {m n : Node} {ns : List Node} {es : List (Entry Node)}
  {arms : List (Arm Node)}

@[induction_eliminator]
theorem induction_children (h : ∀ n, (∀ c ∈ n.children, P c) → P n) (n : Node) : P n := by
  have leaf {n : Node} (hn : n.children = []) : P n := h n (by rw [hn]; exact forall_mem_nil P)
  have one {n c : Node} (hn : n.children = [c]) (hc : P c) : P n :=
    h n (by rw [hn]; exact List.forall_mem_singleton.mpr hc)
  have two {n c d : Node} (hn : n.children = [c, d]) (hc : P c) (hd : P d) : P n :=
    h n (by rw [hn]; exact forall_mem_two hc hd)
  have block {n c : Node} {l : List Node} (hn : n.children = c :: l) (hc : P c) (hl : ∀ d ∈ l, P d) :
      P n := h n (by rw [hn]; exact forall_mem_cons.mpr ⟨hc, hl⟩)
  have join {l l' : List Node} (hl : ∀ c ∈ l, P c) (hl' : ∀ c ∈ l', P c) : ∀ c ∈ l ++ l', P c :=
    forall_mem_append.mpr ⟨hl, hl'⟩
  refine @Node.rec P (fun l => ∀ c ∈ l.getD [], P c) (fun l => ∀ c ∈ l.flatMap Arm.children, P c)
    (fun a => ∀ c ∈ a.children, P c) (fun l => ∀ c ∈ l.flatMap Entry.children, P c)
    (fun e => ∀ c ∈ e.children, P c) (fun l => ∀ c ∈ l, P c)
    (leaf rfl) (fun _ _ hstatements => h _ hstatements) (fun _ => leaf rfl)
    (fun _ _ _ _ _ hplant hbody => h _ (join hplant hbody))
    (fun _ _ _ _ _ _ hinit => one rfl hinit) (fun _ _ htarget hsource => two rfl htarget hsource)
    (fun _ _ _ _ _ _ hbody => h _ hbody) (fun _ => leaf rfl)
    (fun _ _ _ hcallee hargs => block rfl hcallee hargs)
    (fun _ _ hcases hotherwise => h _ (join hcases hotherwise)) (fun _ harm => h _ harm)
    (fun _ _ hcondition hbody => block rfl hcondition hbody)
    (fun _ _ _ _ _ _ hinit hcondition hstep hbody => block rfl hinit
      (forall_mem_cons.mpr ⟨hcondition, forall_mem_cons.mpr ⟨hstep, hbody⟩⟩))
    (fun _ _ _ hscrutinee hcases hdefault => block rfl hscrutinee (join hcases hdefault))
    (fun _ harm => h _ harm) (fun _ hvalue => one rfl hvalue) (leaf rfl) (leaf rfl) (leaf rfl)
    (fun _ _ _ _ hleft hright => two rfl hleft hright) (fun _ _ _ _ hoperand => one rfl hoperand)
    (fun _ _ helements => h _ helements) (fun _ _ hentries => h _ hentries) (fun _ hpair => h _ hpair)
    (fun _ _ _ harray => one rfl harray) (fun _ _ _ hmap hkey => two rfl hmap hkey)
    (fun _ => leaf rfl) (fun _ => leaf rfl) (fun _ => leaf rfl) (fun _ => leaf rfl)
    (fun _ _ _ => leaf rfl) (fun _ => leaf rfl) (fun _ => leaf rfl)
    (forall_mem_nil P) (fun _ hns => hns) (forall_mem_nil P) (fun _ _ harm hrest => join harm hrest)
    (fun _ _ hguard hbody => forall_mem_cons.mpr ⟨hguard, hbody⟩)
    (forall_mem_nil P) (fun _ _ hentry hrest => join hentry hrest)
    (fun _ _ hkey hvalue => forall_mem_two hkey hvalue)
    (forall_mem_nil P) (fun _ _ hn hns => forall_mem_cons.mpr ⟨hn, hns⟩) n

/-- A node occurs in a tree. -/
inductive PartOf : Node → Node → Prop
  | refl (n : Node) : PartOf n n
  | child {m c n : Node} (hc : c ∈ n.children) (hm : PartOf m c) : PartOf m n

theorem PartOf.trans {k : Node} (hk : PartOf k m) (hm : PartOf m n) : PartOf k n := by
  induction hm with
  | refl => exact hk
  | child hc _ ih => exact .child hc ih

theorem PartOf.of_missing (hm : PartOf m .missing) : m = .missing := by
  cases hm with
  | refl => rfl
  | child hc => cases hc

theorem forall_partOf (hn : P n) (hchildren : ∀ c ∈ n.children, ∀ m, PartOf m c → P m) (m : Node)
    (hm : PartOf m n) : P m := by
  cases hm with
  | refl => exact hn
  | child hc hm => exact hchildren _ hc m hm

def AllParts (P : Node → Prop) (n : Node) : Prop := ∀ m, PartOf m n → P m

section AllParts

variable {P : Node → Prop} {n : Node}

theorem AllParts.self (h : AllParts P n) : P n := h n (.refl n)

theorem AllParts.children (h : AllParts P n) : ∀ c ∈ n.children, AllParts P c :=
  fun _ hc m hm => h m (.child hc hm)

theorem AllParts.of_children (hn : P n) (h : ∀ c ∈ n.children, AllParts P c) : AllParts P n :=
  forall_partOf hn h

theorem AllParts.of_leaf (hn : P n) (h : n.children = []) : AllParts P n :=
  .of_children hn (by rw [h]; exact forall_mem_nil _)

end AllParts

/-! ### Other nodes in the place of the children -/

/-- A node without blocks, with other nodes in the place of its children. -/
def mapChildren (f : Node → Node) : Node → Node
  | .assign target source => .assign (f target) (f source)
  | .giveBack value => .giveBack (f value)
  | .binary left op right type => .binary (f left) op (f right) type
  | .unary op operand leading type => .unary op (f operand) leading type
  | .call callee args type => .call (f callee) (args.map (List.map f)) type
  | .arrayLit elements type => .arrayLit (elements.map (List.map f)) type
  | .mapLit entries type => .mapLit (entries.map fun e => ⟨f e.key, f e.value⟩) type
  | .member array index type => .member (f array) index type
  | .property map key type => .property (f map) (f key) type
  | n => n

def isOpen : Node → Bool
  | .program .. | .classDecl .. | .varDecl .. | .funDecl .. | .ifElse .. | .ifCase _ | .whileLoop .. | .forLoop ..
  | .switch .. | .switchCase _ | .entry _ => false
  | _ => true

section MapChildren

variable {f : Node → Node} {n : Node}

theorem getD_map_map (ns : Option (List Node)) : (ns.map (List.map f)).getD [] = (ns.getD []).map f := by
  cases ns <;> rfl

theorem mapChildren_of_not_isOpen (h : n.isOpen = false) : n.mapChildren f = n := by
  cases n <;> first | rfl | cases h

theorem children_mapChildren (h : n.isOpen = true) : (n.mapChildren f).children = n.children.map f := by
  cases n with
  | call => simp only [mapChildren, children, getD_map_map, List.map_cons]
  | arrayLit => simp only [mapChildren, children, getD_map_map]
  | mapLit =>
    simp only [mapChildren, children, List.flatMap_map, List.map_flatMap]
    rfl
  | _ => first | rfl | cases h

theorem mapChildren_id (n : Node) : n.mapChildren id = n := by
  cases n <;> simp [mapChildren]

end MapChildren

/-! ### What a recursion over a list says of each node -/

section Lists

variable {P : Node → Prop}

theorem forall_mem_armChildren {guard : Node} {body : Option (List Node)} {rest : List (Arm Node)} :
    (∀ n ∈ (⟨guard, body⟩ :: rest : List (Arm Node)).flatMap Arm.children, P n) ↔
      P guard ∧ (∀ n ∈ body.getD [], P n) ∧ ∀ n ∈ rest.flatMap Arm.children, P n := by
  rw [List.flatMap_cons, forall_mem_append, Arm.children, forall_mem_cons, and_assoc]

theorem forall_mem_iff {Q : List Node → Prop} (hnil : Q [])
    (hcons : ∀ n ns, Q (n :: ns) ↔ P n ∧ Q ns) : Q ns ↔ ∀ n ∈ ns, P n := by
  induction ns with
  | nil => exact iff_of_true hnil (forall_mem_nil _)
  | cons n ns ih => rw [hcons, ih, forall_mem_cons]

theorem forall_mem_getD_iff {Q : Option (List Node) → Prop} (hnone : Q none)
    (hsome : ∀ ns, Q (some ns) ↔ ∀ n ∈ ns, P n) {ns : Option (List Node)} : Q ns ↔ ∀ n ∈ ns.getD [], P n := by
  cases ns with
  | none => exact iff_of_true hnone (forall_mem_nil _)
  | some ns => exact hsome ns

theorem forall_mem_entries_iff {Q : List (Entry Node) → Prop} (hnil : Q [])
    (hcons : ∀ e es, Q (e :: es) ↔ P e.key ∧ P e.value ∧ Q es) :
    Q es ↔ ∀ n ∈ es.flatMap Entry.children, P n := by
  induction es with
  | nil => exact iff_of_true hnil (forall_mem_nil _)
  | cons e es ih =>
    rw [hcons, ih, List.flatMap_cons, forall_mem_append, Entry.children, forall_mem_cons,
      List.forall_mem_singleton, and_assoc]

theorem forall_mem_arms_iff {Q : List (Arm Node) → Prop} (hnil : Q [])
    (hcons : ∀ a arms, Q (a :: arms) ↔ P a.guard ∧ (∀ n ∈ a.body.getD [], P n) ∧ Q arms) :
    Q arms ↔ ∀ n ∈ arms.flatMap Arm.children, P n := by
  induction arms with
  | nil => exact iff_of_true hnil (forall_mem_nil _)
  | cons a arms ih => rw [hcons, ih, forall_mem_armChildren]

end Lists

/-! ### Properties of all nodes of a tree -/

section Every

variable {p : Node → Bool}

theorem everyOf_iff : everyOf p ns ↔ ∀ n ∈ ns, n.every p :=
  forall_mem_iff (Q := fun ns => everyOf p ns = true) rfl fun n ns => by rw [everyOf, Bool.and_eq_true]

theorem everyIn_iff {ns : Option (List Node)} : everyIn p ns ↔ ∀ n ∈ ns.getD [], n.every p :=
  forall_mem_getD_iff (Q := fun ns => everyIn p ns = true) rfl fun _ => everyOf_iff

theorem everyArm_iff : everyArm p arms ↔ ∀ n ∈ arms.flatMap Arm.children, n.every p :=
  forall_mem_arms_iff (Q := fun arms => everyArm p arms = true) rfl fun a arms => by
    rw [everyArm, Bool.and_eq_true, Bool.and_eq_true, everyIn_iff]

theorem everyEntry_iff : everyEntry p es ↔ ∀ n ∈ es.flatMap Entry.children, n.every p :=
  forall_mem_entries_iff (Q := fun es => everyEntry p es = true) rfl fun e es => by
    rw [everyEntry, Bool.and_eq_true, Bool.and_eq_true]

theorem every_iff : n.every p ↔ p n ∧ ∀ c ∈ n.children, c.every p := by
  cases n <;> simp only [every, children, Arm.children, Entry.children, Bool.and_eq_true, everyIn_iff, everyArm_iff,
    everyEntry_iff, forall_mem_append, forall_mem_cons, List.not_mem_nil, false_implies, implies_true,
    and_true]

end Every

end Node

end LemonScript
