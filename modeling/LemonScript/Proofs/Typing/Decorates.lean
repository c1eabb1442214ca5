import LemonScript.Proofs.Typing.Erasure
import LemonScript.Proofs.Typing.Lexical
/-!
# Trees and their decorations

One tree decorates another if it is that tree once its decoration is erased, the decoration is complete,
and it is lexical. A tree is decorated part by part, so there is one lemma for each form of node.
-/

namespace LemonScript

open Node (erase eraseAll eraseIn every everyEntry everyIn everyOf isDecorated)

/-- Something is the decoration of something else, for a way to erase it, to check that it is complete
and to say that it is lexical. -/
structure Decorates {α : Type} (erase : α → α) (isDecorated : α → Bool) (IsLexical : α → Prop)
    (a a' : α) : Prop where
  erase_eq : erase a' = a
  decorated : isDecorated a' = true
  lexical : IsLexical a'

namespace Decorates

abbrev Expression (Γ : List Entity) : Node → Node → Prop :=
  Decorates erase (every isDecorated) (Lexical.Expression Γ)

abbrev Expressions (Γ : List Entity) : List Node → List Node → Prop :=
  Decorates eraseAll (everyOf isDecorated) (Lexical.Expressions Γ)

abbrev Optional (Γ : List Entity) : Option (List Node) → Option (List Node) → Prop :=
  Decorates eraseIn (everyIn isDecorated) (Lexical.Optional Γ)

abbrev Entries (Γ : List Entity) : List (Entry Node) → List (Entry Node) → Prop :=
  Decorates Node.eraseEntries (everyEntry isDecorated) (Lexical.Entries Γ)

abbrev Parameters (Γ : List Entity) : List Parameter → List Parameter → Prop :=
  Decorates (·.map Parameter.erase) (·.all Parameter.isDecorated) (Lexical.Parameters Γ)

abbrev Statement (Γ : List Entity) : Node → Node → Prop :=
  Decorates erase (every isDecorated) (Lexical.Statement Γ)

abbrev Block (Γ : List Entity) : Option (List Node) → Option (List Node) → Prop :=
  Decorates eraseIn (everyIn isDecorated) (Lexical.Block Γ)

abbrev Arms (Γ : List Entity) : List (Arm Node) → List (Arm Node) → Prop :=
  Decorates Node.eraseArms (Node.everyArm isDecorated) (Lexical.Arms Γ)

attribute [local simp] erase eraseAll eraseIn Node.eraseArms Node.eraseEntries
  every everyOf everyIn Node.everyArm everyEntry isDecorated Node.typeOf

variable {Γ : List Entity} {t : Ty}

/-! ### Expressions -/

section

variable {n n' k k' : Node} {ns ns' : List Node} {args args' : Option (List Node)}
  {entries entries' : List (Entry Node)}

theorem typeOf (h : Expression Γ n n') : n'.typeOf.isResolved := by
  have hdecorated := h.decorated
  have hlexical := h.lexical
  cases n' <;> simp_all [Lexical.Expression]

theorem binary (h : Expression Γ n n') (h' : Expression Γ k k') (op : BinaryOp)
    (ht : t.isResolved) : Expression Γ (.binary n op k .nothing) (.binary n' op k' t) :=
  ⟨by simp [h.erase_eq, h'.erase_eq], by simp [h.decorated, h'.decorated, ht], h.lexical, h'.lexical⟩

theorem unary (h : Expression Γ n n') (op : UnaryOp) (leading : Bool) (ht : t.isResolved) :
    Expression Γ (.unary op n leading .nothing) (.unary op n' leading t) :=
  ⟨by simp [h.erase_eq], by simp [h.decorated, ht], h.lexical⟩

theorem call (h : Expression Γ n n') (hargs : Optional Γ args args') (ht : t.isResolved) :
    Expression Γ (.call n args .nothing) (.call n' args' t) :=
  ⟨by simp [h.erase_eq, hargs.erase_eq], by simp [h.decorated, hargs.decorated, ht], h.lexical,
    hargs.lexical⟩

theorem arrayLit (h : Optional Γ args args') (ht : t.isResolved) :
    Expression Γ (.arrayLit args .nothing) (.arrayLit args' t) :=
  ⟨by simp [h.erase_eq], by simp [h.decorated, ht], h.lexical⟩

theorem mapLit (h : Entries Γ entries entries') (ht : t.isResolved) :
    Expression Γ (.mapLit entries .nothing) (.mapLit entries' t) :=
  ⟨by simp [h.erase_eq], by simp [h.decorated, ht], h.lexical⟩

theorem member (h : Expression Γ n n') (index : Option Int) (ht : t.isResolved) :
    Expression Γ (.member n index .nothing) (.member n' index t) :=
  ⟨by simp [h.erase_eq], by simp [h.decorated, ht], h.lexical⟩

theorem property (h : Expression Γ n n') (h' : Expression Γ k k') (ht : t.isResolved) :
    Expression Γ (.property n k .nothing) (.property n' k' t) :=
  ⟨by simp [h.erase_eq, h'.erase_eq], by simp [h.decorated, h'.decorated, ht], h.lexical, h'.lexical⟩

theorem expressions_cons (h : Expression Γ n n') (hs : Expressions Γ ns ns') :
    Expressions Γ (n :: ns) (n' :: ns') :=
  ⟨by simp [h.erase_eq, hs.erase_eq], by simp [h.decorated, hs.decorated], h.lexical, hs.lexical⟩

theorem optional_some (h : Expressions Γ ns ns') : Optional Γ (some ns) (some ns') :=
  ⟨by simp [h.erase_eq], h.decorated, h.lexical⟩

theorem entries_cons (h : Expression Γ n n') (h' : Expression Γ k k')
    (hs : Entries Γ entries entries') : Entries Γ (⟨n, k⟩ :: entries) (⟨n', k'⟩ :: entries') :=
  ⟨by simp [h.erase_eq, h'.erase_eq, hs.erase_eq],
    by simp [h.decorated, h'.decorated, hs.decorated], h.lexical, h'.lexical, hs.lexical⟩

theorem expressions_head (h : Expressions Γ ns (n' :: ns')) : n'.typeOf.isResolved := by
  have hdecorated := h.decorated
  rw [everyOf, Bool.and_eq_true] at hdecorated
  have hfirst : Expression Γ n'.erase n' := ⟨rfl, hdecorated.1, h.lexical.1⟩
  exact hfirst.typeOf

theorem entries_head (h : Entries Γ entries (⟨n', k'⟩ :: entries')) :
    n'.typeOf.isResolved ∧ k'.typeOf.isResolved := by
  have hdecorated := h.decorated
  simp only [everyEntry, Bool.and_eq_true] at hdecorated
  have hkey : Expression Γ n'.erase n' := ⟨rfl, hdecorated.1, h.lexical.1⟩
  have hvalue : Expression Γ k'.erase k' := ⟨rfl, hdecorated.2.1, h.lexical.2.1⟩
  exact ⟨hkey.typeOf, hvalue.typeOf⟩

end

/-! ### Statements -/

section

variable {n n' k k' j j' : Node} {ns ns' : List Node} {body body' other other' : Option (List Node)}
  {arms arms' : List (Arm Node)} {ps ps' : List Parameter} {name : String} {t' : Ty}

theorem statement (h : Expression Γ n n') :
    Statement Γ n n' ∧ ∀ Δ : List Entity, Lexical.behind Δ n' = Δ := by
  have hlexical := h.lexical
  refine ⟨⟨h.erase_eq, h.decorated, ?_⟩, ?_⟩ <;> cases n' <;>
    first | exact hlexical | exact fun _ => rfl | exact hlexical.elim

theorem varDecl (hname : Lexical.Fresh Γ name) (hinit : n = .missing ∧ n' = .missing ∨ Expression Γ n n')
    (id : Int) (isConst isStatic : Bool) (ht : t'.erase = t) (hresolved : t'.isResolved) :
    Statement Γ (.varDecl t name n isConst isStatic none)
      (.varDecl t' name n' isConst isStatic (some ⟨id, name, isConst, t'⟩)) := by
  rcases hinit with ⟨rfl, rfl⟩ | hinit
  · exact ⟨by simp [ht], by simp [hresolved], hname, .inl rfl, _, rfl, rfl, rfl, rfl⟩
  · exact ⟨by simp [ht, hinit.erase_eq], by simp [hresolved, hinit.decorated], hname,
      .inr hinit.lexical, _, rfl, rfl, rfl, rfl⟩

theorem assign (h : Expression Γ n n') (h' : Expression Γ k k') :
    Statement Γ (.assign n k) (.assign n' k') :=
  ⟨by simp [h.erase_eq, h'.erase_eq], by simp [h.decorated, h'.decorated], h.lexical, h'.lexical⟩

theorem parameters_cons {p : Parameter} (hp : p.entity = none) (hname : Lexical.Fresh Γ p.name) (id : Int)
    (ht : t.erase = p.type) (hresolved : t.isResolved)
    (h : Parameters (.var ⟨id, p.name, false, t⟩ :: Γ) ps ps') :
    Parameters Γ (p :: ps) (⟨t, p.name, some ⟨id, p.name, false, t⟩⟩ :: ps') := by
  obtain ⟨type, name, entity⟩ := p
  obtain rfl : entity = none := hp
  obtain rfl : t.erase = type := ht
  refine ⟨?_, ?_, hname, _, rfl, rfl, rfl, rfl, h.lexical⟩
  · simp [Parameter.erase, h.erase_eq]
  · simp [Parameter.isDecorated, hresolved, h.decorated]

theorem areResolved_parameters (h : ps.all Parameter.isDecorated) :
    Ty.areResolved (ps.map (·.type)) := by
  rw [Ty.areResolved_iff]
  intro t ht
  obtain ⟨p, hp, rfl⟩ := List.mem_map.mp ht
  have hdecorated := List.all_eq_true.mp h p hp
  rw [Parameter.isDecorated, Bool.and_eq_true] at hdecorated
  exact hdecorated.1

theorem funDecl (hname : Lexical.Fresh Γ name) (id : Int) (isStatic : Bool) (ht : t'.erase = t)
    (hresolved : t'.isResolved)
    (hparams : Parameters (.fn ⟨id, name, some ⟨ps'.map (·.type), t'⟩⟩ :: Γ) ps ps')
    (hbody : Block (Lexical.parameterEntities ps' ++
      .fn ⟨id, name, some ⟨ps'.map (·.type), t'⟩⟩ :: Γ) body body') :
    Statement Γ (.funDecl name isStatic t (some ps) body none)
      (.funDecl name isStatic t' (some ps') body' (some ⟨id, name, some ⟨ps'.map (·.type), t'⟩⟩)) := by
  have htype : Ty.areResolved (ps'.map (·.type)) = true := areResolved_parameters hparams.decorated
  refine ⟨?_, ?_, hname, _, ps', rfl, rfl, rfl, rfl, hparams.lexical, hbody.lexical⟩
  · have hps : ps'.map Parameter.erase = ps := hparams.erase_eq
    simp [ht, hps, hbody.erase_eq]
  · have hps : ps'.all Parameter.isDecorated = true := hparams.decorated
    simp [hresolved, hps, hbody.decorated, Function.ty, Signature.ty, Ty.isResolved, htype]

theorem ifElse (h : Arms Γ arms arms') (h' : Block Γ body body') :
    Statement Γ (.ifElse arms body) (.ifElse arms' body') :=
  ⟨by simp [h.erase_eq, h'.erase_eq], by simp [h.decorated, h'.decorated], h.lexical, h'.lexical⟩

theorem whileLoop (h : Expression Γ n n') (h' : Block Γ body body') :
    Statement Γ (.whileLoop n body) (.whileLoop n' body') :=
  ⟨by simp [h.erase_eq, h'.erase_eq], by simp [h.decorated, h'.decorated], h.lexical, h'.lexical⟩

theorem forLoop (hname : Lexical.Fresh Γ name) (id : Int) (hinit : Expression Γ n n')
    (hcondition : Expression (.var ⟨id, name, false, .int⟩ :: Γ) k k')
    (hstep : Expression (.var ⟨id, name, false, .int⟩ :: Γ) j j')
    (hbody : Block (.var ⟨id, name, false, .int⟩ :: Γ) body body') :
    Statement Γ (.forLoop name n k j body none)
      (.forLoop name n' k' j' body' (some ⟨id, name, false, .int⟩)) :=
  ⟨by simp [hinit.erase_eq, hcondition.erase_eq, hstep.erase_eq, hbody.erase_eq],
    by simp [hinit.decorated, hcondition.decorated, hstep.decorated, hbody.decorated, Ty.isResolved],
    hname, hinit.lexical, _, rfl, rfl, rfl, rfl, hcondition.lexical, hstep.lexical, hbody.lexical⟩

theorem switch (h : Expression Γ n n') (h' : Arms Γ arms arms') (h'' : Block Γ body body') :
    Statement Γ (.switch n arms body) (.switch n' arms' body') :=
  ⟨by simp [h.erase_eq, h'.erase_eq, h''.erase_eq], by simp [h.decorated, h'.decorated, h''.decorated],
    h.lexical, h'.lexical, h''.lexical⟩

theorem giveBack (h : Expression Γ n n') : Statement Γ (.giveBack n) (.giveBack n') :=
  ⟨by simp [h.erase_eq], by simp [h.decorated], h.lexical⟩

theorem block_cons (h : Statement Γ n n') (hs : Block (Lexical.behind Γ n') (some ns) (some ns')) :
    Block Γ (some (n :: ns)) (some (n' :: ns')) := by
  have herase : eraseAll ns' = ns := by simpa using hs.erase_eq
  have hdecorated : everyOf isDecorated ns' = true := hs.decorated
  exact ⟨by simp [h.erase_eq, herase], by simp [h.decorated, hdecorated], h.lexical, hs.lexical⟩

theorem arms_cons (h : Expression Γ n n') (hbody : Block Γ body body') (harms : Arms Γ arms arms') :
    Arms Γ (⟨n, body⟩ :: arms) (⟨n', body'⟩ :: arms') :=
  ⟨by simp [h.erase_eq, hbody.erase_eq, harms.erase_eq],
    by simp [h.decorated, hbody.decorated, harms.decorated], h.lexical, hbody.lexical, harms.lexical⟩

end

end Decorates

end LemonScript
