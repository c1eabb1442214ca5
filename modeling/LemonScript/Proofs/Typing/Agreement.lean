import LemonScript.Proofs.Grammar.Parsed
import LemonScript.Proofs.Syntax.Renumber
import LemonScript.Proofs.Typing.KeyText
import LemonScript.Proofs.Typing.Shown
/-!
# Analysis in scopes that agree

What analysis does depends on what the names of a program stand for, and on nothing else in the scope. Two
scopes agree beside some names if every other word stands for the same in both, up to the numbers of entities.
They may keep different composite types, since a type that is found under a text is the one with that text.
From scopes that agree, the analysis of a tree without the names gives the same tree up to the numbers, or it
finds the same mistake.
-/

namespace LemonScript

open List (forall_mem_cons)
open Node (renumberAll renumberArms renumberEntries renumberIn)

/-! ### Names in a tree -/

/-- The names that a spelled type is put together from. -/
def Ty.names : Ty → List String
  | .named name => [name]
  | .array member => member.names
  | .map key value => key.names ++ value.names
  | _ => []

def Parameter.names (p : Parameter) : List String := p.name :: p.type.names

/-- The names at a node, without those in its children. -/
def Node.names : Node → List String
  | .varDecl type name _ _ _ _ => name :: type.names
  | .funDecl name _ result params _ _ => name :: (result.names ++ (params.getD []).flatMap Parameter.names)
  | .classDecl name parent params _ _ => name :: parent :: (params.getD []).flatMap Parameter.names
  | .forLoop name _ _ _ _ _ => [name]
  | .ident name => [name]
  | _ => []

/-- Whether a name occurs nowhere in a tree. -/
def Node.isFreeOf (x : String) (n : Node) : Bool := n.every fun m => !m.names.contains x

def Meaning.renumber (r : Renumbering) : Meaning → Meaning
  | .var v => .var (v.renumber r)
  | .fn f => .fn (f.renumber r)
  | .type t => .type t

namespace Analysis

variable {r : Renumbering} {X : Set String} {name : String} {s s' : Scope} {m : Meaning} {t : Ty}

/-! ### Scopes that agree -/

/-- The words beside `X` stand for the same in both scopes, up to the numbers of entities. -/
structure ScopesAgree (r : Renumbering) (X : Set String) (s s' : Scope) : Prop where
  words : ∀ name, StartsWithLetter name → name ∉ X →
    s'.names.lookup name = (s.names.lookup name).map (Meaning.renumber r)
  kept : WellKept s.names
  kept' : WellKept s'.names
  ids : ∀ k : Nat, s'.nextId + k = r (s.nextId + k)

theorem ScopesAgree.withIds {u u' : Scope} (h : ScopesAgree r X s s') (hu : ScopesAgree r X u u') :
    ScopesAgree r X { u with names := s.names } { u' with names := s'.names } :=
  ⟨h.words, h.kept, h.kept', hu.ids⟩

theorem KeptAs.renumber (h : m.KeptAs name) : (m.renumber r).KeptAs name := by
  cases m <;> exact h

theorem ScopesAgree.cons (h : ScopesAgree r X s s') (hm : m.KeptAs name) :
    ScopesAgree r X { s with names := (name, m) :: s.names }
      { s' with names := (name, m.renumber r) :: s'.names } := by
  refine ⟨fun name' hletter hne => ?_, forall_mem_cons.mpr ⟨hm, h.kept⟩,
    forall_mem_cons.mpr ⟨KeptAs.renumber hm, h.kept'⟩, h.ids⟩
  by_cases heq : name' = name
  · subst heq
    rw [List.lookup_cons_self, List.lookup_cons_self, Option.map_some]
  · rw [lookup_cons_of_ne heq, lookup_cons_of_ne heq, h.words name' hletter hne]

/-- How two runs end that agree: with results that are related, or with the same error. No text of a type
stands for an entity. -/
inductive EndsAgree (r : Renumbering) (X : Set String) {α : Type} (R : α → α → Prop) :
    Except AnalysisError (α × Scope) → Except AnalysisError (α × Scope) → Prop
  | done {a b : α} {u u' : Scope} : R a b → ScopesAgree r X u u' → EndsAgree r X R (.ok (a, u)) (.ok (b, u'))
  | failed (e : AnalysisError) : (∀ name, e ≠ .fault (.notAType name)) → EndsAgree r X R (.error e) (.error e)

/-- From scopes that agree, both steps end in the same way. -/
def Agree (r : Renumbering) (X : Set String) {α : Type} (m m' : Analysis α) (R : α → α → Prop) : Prop :=
  ∀ s s', ScopesAgree r X s s' → EndsAgree r X R (m s) (m' s')

section Steps

variable {α β : Type} {R : α → α → Prop} {T : β → β → Prop} {step step' : Analysis α}

theorem agree_pure {a b : α} (h : R a b) : Agree r X (pure a) (pure b) R := fun _ _ hs => .done h hs

theorem agree_reject {e : SemanticError} : Agree r X (reject e) (reject e) R :=
  fun _ _ _ => .failed _ (by simp)

theorem agree_fault {f : Fault} (h : ∀ name, f ≠ .notAType name) : Agree r X (fault f) (fault f) R :=
  fun _ _ _ => .failed _ fun name heq => h name (AnalysisError.fault.inj heq)

theorem agree_require (condition : Bool) (e : SemanticError) :
    Agree r X (require condition e) (require condition e) fun a b => b = a := by
  unfold require
  split
  · exact agree_pure rfl
  · exact agree_reject

theorem agree_get : Agree r X (get : Analysis Scope) get (ScopesAgree r X) := fun _ _ hs => .done hs hs

theorem agree_modify {f f' : Scope → Scope} (h : ∀ s s', ScopesAgree r X s s' → ScopesAgree r X (f s) (f' s')) :
    Agree r X (modify f : Analysis PUnit) (modify f') fun a b => b = a :=
  fun s s' hs => .done rfl (h s s' hs)

theorem Agree.bind {f f' : α → Analysis β} (h : Agree r X step step' R)
    (hf : ∀ a b, R a b → Agree r X (f a) (f' b) T) : Agree r X (step >>= f) (step' >>= f') T := by
  intro s s' hs
  have hsteps := h s s' hs
  change EndsAgree r X T (Except.bind (step s) fun p => f p.1 p.2) (Except.bind (step' s') fun p => f' p.1 p.2)
  generalize step s = ends, step' s' = ends' at hsteps
  cases hsteps with
  | done hab hu => exact hf _ _ hab _ _ hu
  | failed e he => exact .failed e he

theorem Agree.imp {T : α → α → Prop} (h : Agree r X step step' R) (hRT : ∀ a b, R a b → T a b) :
    Agree r X step step' T := by
  intro s s' hs
  have hends := h s s' hs
  generalize step s = ends, step' s' = ends' at hends
  cases hends with
  | done hab hu => exact .done (hRT _ _ hab) hu
  | failed e he => exact .failed e he

/-- A step whose result in the one scope is a function of that in the other, and what follows it. -/
theorem Agree.andThen {g : α → α} {f f' : α → Analysis β} (h : Agree r X step step' fun a b => b = g a)
    (hf : ∀ a, Agree r X (f a) (f' (g a)) T) : Agree r X (step >>= f) (step' >>= f') T :=
  h.bind fun a _ hab => hab ▸ hf a

theorem Agree.inBlock (h : Agree r X step step' R) : Agree r X (inBlock step) (inBlock step') R := by
  refine agree_get.bind fun s s' hs => h.bind fun a b hab => ?_
  exact (agree_modify fun u u' hu => hs.withIds hu).andThen fun _ => agree_pure hab

end Steps

/-! ### Names and entities -/

section Names

variable (hletter : StartsWithLetter name) (hne : name ∉ X)

include hletter hne

theorem agree_lookUp : Agree r X (lookUp name) (lookUp name)
    fun m m' => m' = m.renumber r ∧ ∀ t, m = .type t → t.isResolved := by
  refine agree_get.bind fun s s' hs => ?_
  simp only [Scope.find?, hs.words name hletter hne]
  cases hfound : s.names.lookup name with
  | none => exact agree_reject
  | some m =>
    refine agree_pure ⟨rfl, fun t ht => ?_⟩
    subst ht
    exact (hs.kept _ (Shows.mem_of_lookup hfound)).1

theorem agree_identifier : Agree r X (identifier name) (identifier name) fun n n' => n' = n.renumber r := by
  refine (agree_lookUp hletter hne).bind ?_
  rintro m _ ⟨rfl, -⟩
  cases m with
  | var v => exact agree_pure rfl
  | fn f =>
    change Agree r X (if f.signature.isNone then _ else _) (if f.signature.isNone then _ else _) _
    split
    · exact agree_fault (by simp)
    · exact agree_pure rfl
  | type t => exact agree_reject

theorem agree_declare (hm : m.KeptAs name) :
    Agree r X (declare name m) (declare name (m.renumber r)) fun a b => b = a := by
  refine agree_get.bind fun s s' hs => ?_
  have hword : (s'.find? name).isNone = (s.find? name).isNone := by
    rw [Scope.find?, hs.words name hletter hne, Option.isNone_map]
    rfl
  rw [hword]
  exact (agree_require _ _).andThen fun _ _ _ _ => .done rfl (hs.cons hm)

theorem agree_declareVariable (id : Int) (isConst : Bool) (t : Ty) :
    Agree r X (declare name (.var ⟨id, name, isConst, t⟩)) (declare name (.var ⟨r id, name, isConst, t⟩))
      fun a b => b = a :=
  agree_declare (m := .var ⟨id, name, isConst, t⟩) hletter hne ⟨rfl, hletter⟩

end Names

theorem agree_freshId : Agree r X freshId freshId fun i j => j = r i := by
  intro s s' hs
  refine .done (by simpa using hs.ids 0) ⟨hs.words, hs.kept, hs.kept', fun k => ?_⟩
  have hid := hs.ids (k + 1)
  push_cast at hid
  rwa [add_comm (k : ℤ) 1, ← add_assoc, ← add_assoc] at hid

theorem lookup_rebind (names : List (String × Meaning)) (name' : String) :
    (names.map fun (n, old) => if n == name then (n, m) else (n, old)).lookup name' =
      if name' = name then (names.lookup name').map fun _ => m else names.lookup name' := by
  induction names with
  | nil => simp
  | cons entry names ih =>
    obtain ⟨n, old⟩ := entry
    rw [List.map_cons]
    by_cases hn : name' = n
    · subst hn
      by_cases hname : name' = name <;> simp [hname]
    · have hne : (name' == n) = false := beq_false_of_ne hn
      by_cases hname : n = name
      · subst hname
        simpa [List.lookup_cons, hne] using ih
      · simpa [List.lookup_cons, hne, hname] using ih

theorem agree_rebind (hm : m.KeptAs name) :
    Agree r X (rebind name m) (rebind name (m.renumber r)) fun a b => b = a := by
  refine agree_modify fun s s' hs => ⟨fun name' hletter hne => ?_, hs.kept.rebind hm,
    hs.kept'.rebind (KeptAs.renumber hm), hs.ids⟩
  simp only [lookup_rebind, hs.words name' hletter hne]
  split
  · cases s.names.lookup name' <;> rfl
  · rfl

theorem agree_register (ht : t.isResolved) (hparts : ∀ b, t ≠ .base b) :
    Agree r X (register t) (register t) fun a b => b = a ∧ a.isResolved := by
  intro s s' hs
  obtain ⟨names, hrun, hnames⟩ := register_eq hs.kept ht hparts
  obtain ⟨names', hrun', hnames'⟩ := register_eq hs.kept' ht hparts
  rw [hrun, hrun']
  refine .done ⟨rfl, ht⟩ ⟨fun name hletter hne => ?_, hnames.wellKept hs.kept ht hparts,
    hnames'.wellKept hs.kept' ht hparts, hs.ids⟩
  have hother : name ≠ t.text := fun heq => not_startsWithLetter_text ht hparts (heq ▸ hletter)
  rw [hnames.lookup_of_ne hother, hnames'.lookup_of_ne hother, hs.words name hletter hne]

theorem agree_resolve : ∀ {t : Ty}, t.Spelled → (∀ name ∈ t.names, name ∉ X) →
    Agree r X (resolve t) (resolve t) fun a b => b = a ∧ a.isResolved
  | .named name, ht, hX => by
    refine (agree_lookUp ht (hX name (.head _))).bind ?_
    rintro m _ ⟨rfl, hm⟩
    cases m with
    | type t => exact agree_pure ⟨rfl, hm t rfl⟩
    | _ => exact agree_reject
  | .array member, ht, hX => by
    refine (agree_resolve (t := member) ht hX).bind ?_
    rintro member _ ⟨rfl, hmember⟩
    exact agree_register (by rwa [Ty.isResolved]) (by simp)
  | .map key value, ht, hX => by
    rw [Ty.names, List.forall_mem_append] at hX
    refine (agree_resolve ht.1 hX.1).bind ?_
    rintro key _ ⟨rfl, hkey⟩
    refine (agree_resolve ht.2 hX.2).bind ?_
    rintro value _ ⟨rfl, hvalue⟩
    exact agree_register (by rw [Ty.isResolved, hkey, hvalue]; rfl) (by simp)

theorem agree_type (ht : t.Spelled) (hX : ∀ name ∈ t.names, name ∉ X) :
    Agree r X (resolve t) (resolve t) fun a b => b = a :=
  (agree_resolve ht hX).imp fun _ _ h => h.1

theorem agree_declareParameters : ∀ {ps : List Parameter},
    (∀ p ∈ ps, p.type.Spelled ∧ StartsWithLetter p.name) → (∀ name ∈ ps.flatMap Parameter.names, name ∉ X) →
      Agree r X (declareParameters ps) (declareParameters ps) fun a b => b = a.map (Parameter.renumber r)
  | [], _, _ => agree_pure rfl
  | p :: ps, h, hX => by
    rw [forall_mem_cons] at h
    simp only [List.flatMap_cons, Parameter.names, List.cons_append, forall_mem_cons, List.forall_mem_append] at hX
    rw [declareParameters]
    simp only [newVariable, bind_assoc, pure_bind]
    refine (agree_type h.1.1 hX.2.1).andThen fun type => agree_freshId.andThen fun id => ?_
    refine (agree_declareVariable h.1.2 hX.1 id false type).andThen fun _ => ?_
    exact (agree_declareParameters h.2 hX.2.2).andThen fun ps => agree_pure rfl

/-! ### Checks

A check looks at the types of nodes, which the numbers of entities do not change. -/

@[simp] theorem typeOf_renumber (n : Node) : (n.renumber r).typeOf = n.typeOf := by
  cases n <;> rfl

theorem renumberAll_eq_map (ns : List Node) : renumberAll r ns = ns.map (Node.renumber r) := by
  induction ns with
  | nil => rfl
  | cons n ns ih => rw [renumberAll, ih, List.map_cons]

theorem agree_expect (q : Requirement) (n : Node) :
    Agree r X (expect q n) (expect q (n.renumber r)) fun a b => b = a := by
  rw [expect, expect, typeOf_renumber]
  exact agree_require _ _

theorem agree_sameType (a b : Node) :
    Agree r X (sameType a b) (sameType (a.renumber r) (b.renumber r)) fun a b => b = a := by
  rw [sameType, sameType, typeOf_renumber, typeOf_renumber]
  exact agree_require _ _

theorem agree_assignableTo (n : Node) (t : Ty) :
    Agree r X (assignableTo n t) (assignableTo (n.renumber r) t) fun a b => b = a := by
  rw [assignableTo, assignableTo, typeOf_renumber]
  exact agree_require _ _

theorem agree_notConstant (n : Node) :
    Agree r X (notConstant n) (notConstant (n.renumber r)) fun a b => b = a := by
  cases n with
  | var v => exact agree_require _ _
  | fn f => exact agree_reject
  | _ => exact agree_pure rfl

theorem agree_uniform (part : LiteralPart) (ns : List Node) :
    Agree r X (uniform part ns) (uniform part (ns.map (Node.renumber r))) fun a b => b = a := by
  cases ns with
  | nil => exact agree_pure rfl
  | cons n ns =>
    have hall : (ns.map (Node.renumber r)).all (·.typeOf.equivalent (n.renumber r).typeOf) =
        ns.all (·.typeOf.equivalent n.typeOf) := by
      simp [Function.comp_def]
    rw [List.map_cons, uniform, uniform, hall]
    exact agree_require _ _

theorem agree_argumentsFit (ns : List Node) (ts : List Ty) :
    Agree r X (argumentsFit ns ts) (argumentsFit (ns.map (Node.renumber r)) ts) fun a b => b = a := by
  induction ns generalizing ts with
  | nil => exact agree_pure rfl
  | cons n ns ih =>
    cases ts with
    | nil => exact agree_pure rfl
    | cons t ts => exact (agree_assignableTo n t).andThen fun _ => ih ts

theorem sameKey_renumber {k k' : Node} : SameKey (k.renumber r) (k'.renumber r) ↔ SameKey k k' := by
  constructor
  · intro h
    generalize hk : k.renumber r = m, hk' : k'.renumber r = m' at h
    cases h with
    | int | float | string | bool =>
      cases k <;> cases hk
      cases k' <;> cases hk'
      constructor
    | var h =>
      cases k <;> cases hk
      cases k' <;> cases hk'
      exact .var (r.injective h)
  · intro h
    cases h with
    | var h => exact .var (congrArg r h)
    | _ => constructor

theorem agree_distinctKeys (ns : List Node) :
    Agree r X (distinctKeys ns) (distinctKeys (ns.map (Node.renumber r))) fun a b => b = a := by
  have hdistinct : distinct ((ns.map (Node.renumber r)).filterMap keyPrint?) = distinct (ns.filterMap keyPrint?) := by
    rw [Bool.eq_iff_iff, distinct_keys_iff, distinct_keys_iff, List.pairwise_map]
    simp only [sameKey_renumber]
  rw [distinctKeys, distinctKeys, hdistinct]
  exact agree_require _ _

theorem agree_binaryType (left : Node) (op : BinaryOp) (right : Node) :
    Agree r X (binaryType left op right) (binaryType (left.renumber r) op (right.renumber r)) fun a b => b = a := by
  unfold binaryType expect sameType
  rw [typeOf_renumber, typeOf_renumber]
  cases op with
  | other => exact agree_fault (by simp)
  | equal | notEqual => exact (agree_require _ _).andThen fun _ => agree_pure rfl
  | _ => exact (agree_require _ _).andThen fun _ => (agree_require _ _).andThen fun _ => agree_pure rfl

theorem agree_compoundTarget (left : Node) (op : BinaryOp) :
    Agree r X (compoundTarget left op) (compoundTarget (left.renumber r) op) fun a b => b = a := by
  cases op with
  | addAssign | subAssign => exact agree_notConstant left
  | _ => exact agree_pure rfl

theorem agree_unaryType (op : UnaryOp) (operand : Node) :
    Agree r X (unaryType op operand) (unaryType op (operand.renumber r)) fun a b => b = a := by
  unfold unaryType
  rw [typeOf_renumber]
  cases op with
  | increment | decrement =>
    exact (agree_expect _ _).andThen fun _ => (agree_notConstant operand).andThen fun _ => agree_pure rfl
  | _ => exact (agree_expect _ _).andThen fun _ => agree_pure rfl

theorem agree_calleeSignature (callee : Node) :
    Agree r X (calleeSignature callee) (calleeSignature (callee.renumber r)) fun a b => b = a := by
  unfold calleeSignature
  rw [typeOf_renumber]
  cases callee.typeOf with
  | func => exact agree_pure rfl
  | _ => exact agree_reject

theorem agree_arrayLiteral (ns : List Node) :
    Agree r X (arrayLiteral ns) (arrayLiteral (ns.map (Node.renumber r))) fun n n' => n' = n.renumber r := by
  cases ns with
  | nil => exact agree_pure rfl
  | cons n ns =>
    refine (agree_uniform _ (n :: ns)).andThen fun _ => agree_pure ?_
    rw [typeOf_renumber, Node.renumber, renumberIn, renumberAll_eq_map, List.map_cons]

theorem map_renumberEntries (es : List (Entry Node)) :
    (renumberEntries r es).map (·.key) = (es.map (·.key)).map (Node.renumber r) ∧
      (renumberEntries r es).map (·.value) = (es.map (·.value)).map (Node.renumber r) := by
  induction es with
  | nil => exact ⟨rfl, rfl⟩
  | cons e es ih => simp only [renumberEntries, List.map_cons, ih, and_self]

theorem agree_mapLiteral (es : List (Entry Node)) :
    Agree r X (mapLiteral es) (mapLiteral (renumberEntries r es)) fun n n' => n' = n.renumber r := by
  obtain ⟨hkeys, hvalues⟩ := map_renumberEntries (r := r) es
  cases es with
  | nil => exact agree_pure rfl
  | cons =>
    rw [renumberEntries] at hkeys hvalues ⊢
    simp only [mapLiteral, hkeys, hvalues]
    refine (agree_uniform _ _).andThen fun _ => (agree_uniform _ _).andThen fun _ => ?_
    refine (agree_distinctKeys _).andThen fun _ => agree_pure ?_
    simp only [typeOf_renumber, Node.renumber, renumberEntries]

theorem all_renumberArms (p : Ty → Bool) (arms : List (Arm Node)) :
    ((renumberArms r arms).all fun a => p a.guard.typeOf) = arms.all fun a => p a.guard.typeOf := by
  induction arms with
  | nil => rfl
  | cons a arms ih => rw [renumberArms, List.all_cons, List.all_cons, ih, typeOf_renumber]

/-! ### Trees -/

/-- From scopes that agree, the tree is analyzed to the same, up to the numbers. -/
def Agrees (r : Renumbering) (X : Set String) (n : Node) : Prop :=
  ∀ here : Surroundings, Agree r X (node here n) (node here n) fun a b => b = a.renumber r

variable {here : Surroundings} {n : Node}

-- the equations of the analysis are put up once, before the proofs that share them
attribute [local simp] node nodes block ifCases switchCases mapEntries

theorem agree_nodes : ∀ {ns : List Node}, (∀ n ∈ ns, Agrees r X n) →
    Agree r X (nodes here ns) (nodes here ns) fun a b => b = renumberAll r a
  | [], _ => by
    rw [nodes]
    exact agree_pure rfl
  | n :: ns, h => by
    rw [forall_mem_cons] at h
    rw [nodes]
    exact (h.1 here).andThen fun n => (agree_nodes h.2).andThen fun ns => agree_pure rfl

theorem agree_block {ns : Option (List Node)} (h : ∀ n ∈ ns.getD [], Agrees r X n) :
    Agree r X (block here ns) (block here ns) fun a b => b = renumberIn r a := by
  cases ns with
  | none =>
    rw [block]
    exact agree_pure rfl
  | some ns =>
    rw [block]
    exact (agree_nodes h).andThen fun ns => agree_pure rfl

theorem agree_ifCases : ∀ {arms : List (Arm Node)}, (∀ n ∈ arms.flatMap Arm.children, Agrees r X n) →
    Agree r X (ifCases here arms) (ifCases here arms) fun a b => b = renumberArms r a
  | [], _ => by
    rw [ifCases]
    exact agree_pure rfl
  | ⟨guard, body⟩ :: rest, h => by
    obtain ⟨hguard, hbody, hrest⟩ := Node.forall_mem_armChildren.mp h
    rw [ifCases]
    refine (hguard here).andThen fun guard => (agree_expect _ _).andThen fun _ => ?_
    refine (agree_block hbody).inBlock.andThen fun body => ?_
    exact (agree_ifCases hrest).andThen fun rest => agree_pure rfl

theorem agree_switchCases : ∀ {arms : List (Arm Node)}, (∀ n ∈ arms.flatMap Arm.children, Agrees r X n) →
    Agree r X (switchCases here arms) (switchCases here arms) fun a b => b = renumberArms r a
  | [], _ => by
    rw [switchCases]
    exact agree_pure rfl
  | ⟨guard, body⟩ :: rest, h => by
    obtain ⟨hguard, hbody, hrest⟩ := Node.forall_mem_armChildren.mp h
    rw [switchCases]
    refine (hguard here).andThen fun guard => (agree_block hbody).inBlock.andThen fun body => ?_
    exact (agree_switchCases hrest).andThen fun rest => agree_pure rfl

theorem agree_mapEntries : ∀ {es : List (Entry Node)}, (∀ n ∈ es.flatMap Entry.children, Agrees r X n) →
    Agree r X (mapEntries here es) (mapEntries here es) fun a b => b = renumberEntries r a
  | [], _ => by
    rw [mapEntries]
    exact agree_pure rfl
  | ⟨key, value⟩ :: rest, h => by
    rw [List.flatMap_cons, List.forall_mem_append, Entry.children, forall_mem_cons,
      List.forall_mem_singleton] at h
    rw [mapEntries]
    refine (h.1.1 here).andThen fun key => (h.1.2 here).andThen fun value => ?_
    exact (agree_mapEntries h.2).andThen fun rest => agree_pure rfl

theorem agree_optional {missing : Bool} {step : Analysis Node} {f : Option Node → Analysis Node}
    {T : Node → Node → Prop} (hstep : Agree r X step step fun a b => b = a.renumber r)
    (hf : ∀ init, Agree r X (f init) (f (init.map (Node.renumber r))) T) :
    Agree r X (if missing then pure none >>= f else some <$> step >>= f)
      (if missing then pure none >>= f else some <$> step >>= f) T := by
  split
  · exact hf none
  · rw [map_eq_pure_bind, bind_assoc]
    exact hstep.andThen fun n => hf (some n)

theorem agrees_varDecl {type : Ty} {init : Node} {isConst isStatic : Bool} {entity : Option Variable}
    (ht : type.Spelled) (hletter : StartsWithLetter name) (hX : ∀ y ∈ name :: type.names, y ∉ X)
    (hinit : Agrees r X init) : Agrees r X (.varDecl type name init isConst isStatic entity) := by
  intro here
  rw [forall_mem_cons] at hX
  rw [node]
  refine agree_optional (hinit here) fun init => ?_
  simp only [newVariable, bind_assoc, pure_bind]
  refine (agree_type ht hX.2).andThen fun type => agree_freshId.andThen fun id => ?_
  have hdeclare := agree_declareVariable (r := r) hletter hX.1 id isConst type
  cases init with
  | none => exact hdeclare.andThen fun _ => agree_pure rfl
  | some init =>
    refine (agree_sameType (.var ⟨id, name, isConst, type⟩) init).andThen fun _ => ?_
    exact hdeclare.andThen fun _ => agree_pure rfl

theorem agrees_funDecl {isStatic : Bool} {result : Ty} {params : Option (List Parameter)}
    {body : Option (List Node)} {entity : Option Function}
    (hn : (Node.funDecl name isStatic result params body entity).Worded)
    (hX : ∀ y ∈ (Node.funDecl name isStatic result params body entity).names, y ∉ X)
    (hbody : ∀ n ∈ body.getD [], Agrees r X n) :
    Agrees r X (.funDecl name isStatic result params body entity) := by
  intro here
  obtain ⟨hletter, hresult, hparams⟩ := hn
  simp only [Node.names, forall_mem_cons, List.forall_mem_append] at hX
  rw [node]
  refine (agree_type hresult hX.2.1).andThen fun result => agree_freshId.andThen fun id => ?_
  refine agree_get.bind fun outer outer' houter => ?_
  refine (agree_declare (m := .fn ⟨id, name, none⟩) hletter hX.1 ⟨rfl, hletter⟩).andThen fun _ => ?_
  refine (agree_declareParameters hparams hX.2.2).andThen fun params => ?_
  have htypes : (params.map (Parameter.renumber r)).map (·.type) = params.map (·.type) := by
    rw [List.map_map]
    rfl
  let m : Meaning := .fn ⟨id, name, some ⟨params.map (·.type), result⟩⟩
  have hm : m.KeptAs name := ⟨rfl, hletter⟩
  simp only [htypes]
  refine (agree_rebind hm).andThen fun _ => (agree_block hbody).andThen fun body => ?_
  exact (agree_modify fun s s' hs => (houter.withIds hs).cons hm).andThen fun _ => agree_pure rfl

theorem agrees_call {callee : Node} {args : Option (List Node)} {type : Ty} (hcallee : Agrees r X callee)
    (hargs : ∀ n ∈ args.getD [], Agrees r X n) : Agrees r X (.call callee args type) := by
  intro here
  rw [node]
  refine (hcallee here).andThen fun callee => (agree_calleeSignature callee).andThen fun signature => ?_
  refine (agree_block hargs).andThen fun args => ?_
  simp only [Node.renumberAll_getD, renumberAll_eq_map, List.length_map]
  exact (agree_require _ _).andThen fun _ => (agree_argumentsFit _ _).andThen fun _ => agree_pure rfl

theorem agrees_forLoop {init condition step : Node} {body : Option (List Node)} {entity : Option Variable}
    (hletter : StartsWithLetter name) (hX : name ∉ X)
    (h : ∀ c ∈ (Node.forLoop name init condition step body entity).children, Agrees r X c) :
    Agrees r X (.forLoop name init condition step body entity) := by
  intro here
  simp only [Node.children, forall_mem_cons] at h
  obtain ⟨hinit, hcondition, hstep, hbody⟩ := h
  rw [node]
  refine (hinit here).andThen fun init => (agree_expect _ _).andThen fun _ => Agree.inBlock ?_
  simp only [newVariable, bind_assoc, pure_bind]
  refine agree_freshId.andThen fun id => (agree_declareVariable hletter hX id false .int).andThen fun _ => ?_
  refine (hcondition _).andThen fun condition => (agree_expect _ _).andThen fun _ => ?_
  exact (hstep _).andThen fun step => (agree_block hbody).andThen fun body => agree_pure rfl

theorem agrees_switch {scrutinee : Node} {cases : List (Arm Node)} {default : Option (List Node)}
    (h : ∀ c ∈ (Node.switch scrutinee cases default).children, Agrees r X c) :
    Agrees r X (.switch scrutinee cases default) := by
  intro here
  obtain ⟨hscrutinee, hrest⟩ := forall_mem_cons.mp h
  obtain ⟨hcases, hdefault⟩ := List.forall_mem_append.mp hrest
  rw [node]
  refine (hscrutinee here).andThen fun scrutinee => (agree_switchCases hcases).andThen fun cases => ?_
  simp only [typeOf_renumber, all_renumberArms fun t => t.equivalent scrutinee.typeOf]
  refine (agree_require _ _).andThen fun _ => ?_
  exact (agree_block hdefault).inBlock.andThen fun default => agree_pure rfl

theorem agrees_member {array : Node} {index : Option Int} {type : Ty} (harray : Agrees r X array) :
    Agrees r X (.member array index type) := by
  intro here
  rw [node]
  refine (harray here).andThen fun array => ?_
  rw [typeOf_renumber]
  generalize array.typeOf = type
  cases type with
  | array =>
    cases index with
    | none => exact agree_fault (by simp)
    | some => exact agree_pure rfl
  | _ => exact agree_reject

theorem agrees_property {map key : Node} {type : Ty} (hmap : Agrees r X map) (hkey : Agrees r X key) :
    Agrees r X (.property map key type) := by
  intro here
  rw [node]
  refine (hmap here).andThen fun map => ?_
  rw [typeOf_renumber]
  generalize map.typeOf = type
  cases type with
  | map =>
    refine (hkey here).andThen fun key => ?_
    rw [typeOf_renumber]
    exact (agree_require _ _).andThen fun _ => agree_pure rfl
  | _ => exact agree_reject

/-- The step of the induction: what agrees on the children of a node agrees on the node. -/
theorem agrees_of_children (hn : n.Worded) (hX : ∀ name ∈ n.names, name ∉ X) (h : ∀ c ∈ n.children, Agrees r X c) :
    Agrees r X n := by
  intro here
  cases n with
  | varDecl => exact agrees_varDecl hn.1 hn.2 hX (List.forall_mem_singleton.mp h) here
  | funDecl => exact agrees_funDecl hn hX h here
  | call => exact agrees_call (forall_mem_cons.mp h).1 (forall_mem_cons.mp h).2 here
  | forLoop => exact agrees_forLoop hn (hX _ (.head _)) h here
  | switch => exact agrees_switch h here
  | member => exact agrees_member (List.forall_mem_singleton.mp h) here
  | property => exact agrees_property (h _ (.head _)) (h _ (.tail _ (.head _))) here
  | assign target source =>
    simp only [Node.children, forall_mem_cons] at h
    rw [node]
    refine (h.2.1 here).andThen fun source => (h.1 here).andThen fun target => ?_
    simp only [typeOf_renumber]
    exact (agree_assignableTo _ _).andThen fun _ => (agree_notConstant target).andThen fun _ => agree_pure rfl
  | ifElse cases otherwise =>
    obtain ⟨hcases, hotherwise⟩ := List.forall_mem_append.mp h
    rw [node]
    refine (agree_ifCases hcases).andThen fun cases => ?_
    exact (agree_block hotherwise).inBlock.andThen fun otherwise => agree_pure rfl
  | whileLoop condition body =>
    obtain ⟨hcondition, hbody⟩ := forall_mem_cons.mp h
    rw [node]
    refine (hcondition here).andThen fun condition => (agree_expect _ _).andThen fun _ => ?_
    exact (agree_block hbody).inBlock.andThen fun body => agree_pure rfl
  | giveBack value =>
    rw [node]
    split
    · exact agree_reject
    · exact agree_reject
    · refine (List.forall_mem_singleton.mp h here).andThen fun value => ?_
      exact (agree_assignableTo _ _).andThen fun _ => agree_pure rfl
  | giveBackNothing =>
    rw [node]
    split
    · exact agree_reject
    · exact agree_pure rfl
    · exact agree_reject
  | chop | next =>
    rw [node]
    exact (agree_require _ _).andThen fun _ => agree_pure rfl
  | binary left op right type =>
    simp only [Node.children, forall_mem_cons] at h
    rw [node]
    refine (h.1 here).andThen fun left => (h.2.1 here).andThen fun right => ?_
    refine (agree_binaryType left op right).andThen fun type => ?_
    exact (agree_compoundTarget left op).andThen fun _ => agree_pure rfl
  | unary op operand _ type =>
    rw [node]
    refine (List.forall_mem_singleton.mp h here).andThen fun operand => ?_
    exact (agree_unaryType op operand).andThen fun type => agree_pure rfl
  | arrayLit elements =>
    rw [node]
    refine (agree_block h).andThen fun elements => ?_
    rw [Node.renumberAll_getD, renumberAll_eq_map]
    exact agree_arrayLiteral _
  | mapLit entries =>
    rw [node]
    exact (agree_mapEntries h).andThen fun entries => agree_mapLiteral entries
  | ident name =>
    rw [node]
    exact agree_identifier hn (hX name (.head _))
  | classDecl =>
    rw [node]
    exact agree_reject
  | var | fn => exact absurd hn id
  | intLit | floatLit | stringLit | boolLit =>
    rw [node]
    exact agree_pure rfl
  | program | importing | parameter | ifCase | switchCase | entry | missing =>
    rw [node]
    exact agree_fault (by simp [Fault.ofNode])

theorem agrees_of_names (hn : n.AllParts Node.Worded) (hX : n.AllParts fun m => ∀ name ∈ m.names, name ∉ X) :
    Agrees r X n := by
  induction n with
  | h n ih => exact agrees_of_children hn.self hX.self fun c hc => ih c hc (hn.children c hc) (hX.children c hc)

/-! ### One scope -/

/-- Whatever is analyzed, entities stay under their names and composite types under their texts, and no text
of a type is found to stand for an entity. -/
theorem wellKept_of_node (hn : n.AllParts Node.Worded) (hs : WellKept s.names) :
    (∀ n' s', node here n s = .ok (n', s') → WellKept s'.names) ∧
      ∀ name, node here n s ≠ .error (.fault (.notAType name)) := by
  -- a scope agrees with itself, without any renumbering
  let r : Renumbering := ⟨id, Function.injective_id, fun _ _ => rfl, fun _ _ => rfl⟩
  have hself : ScopesAgree r ∅ s s := by
    refine ⟨fun name _ _ => ?_, hs, hs, fun k => rfl⟩
    have hmeaning (m : Meaning) : m.renumber r = m := by cases m <;> rfl
    simp [funext hmeaning]
  have hends := agrees_of_names hn (fun m _ name _ => Set.notMem_empty name) here s s hself
  constructor
  · intro n' s' hrun
    rw [hrun] at hends
    cases hends with
    | done _ hs' => exact hs'.kept
  · intro name hrun
    rw [hrun] at hends
    cases hends with
    | failed _ he => exact he name rfl

end Analysis

end LemonScript
