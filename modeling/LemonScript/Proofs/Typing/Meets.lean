import LemonScript.Proofs.Typing.Scoped
import LemonScript.Typing.Analysis
/-!
# What steps of analysis do

A step of analysis may find a mistake in the program, but it must not meet a fault of the tree. This
module says what a step does when it succeeds, for every step that analysis is put together from.
-/

namespace LemonScript

/-- The numbers from the first one on, as far as the last one, which is not among them. -/
def Consecutive (first : Int) : List Int → Int → Prop
  | [], last => first = last
  | i :: is, last => i = first ∧ Consecutive (first + 1) is last

namespace Consecutive

variable {a b c : Int} {is js : List Int}

theorem append (h : Consecutive a is b) (h' : Consecutive b js c) : Consecutive a (is ++ js) c := by
  induction is generalizing a with
  | nil =>
    obtain rfl : a = b := h
    exact h'
  | cons i is ih => exact ⟨h.1, ih h.2⟩

theorem le_of_mem (h : Consecutive a is b) {i : Int} (hi : i ∈ is) : a ≤ i := by
  induction is generalizing a with
  | nil => simp at hi
  | cons j is ih =>
    rcases List.mem_cons.mp hi with rfl | hi
    · exact h.1.ge
    · have hle := ih h.2 hi
      omega

theorem nodup (h : Consecutive a is b) : is.Nodup := by
  induction is generalizing a with
  | nil => exact List.nodup_nil
  | cons i is ih =>
    refine List.nodup_cons.mpr ⟨fun hmem => ?_, ih h.2⟩
    have hle := le_of_mem h.2 hmem
    have heq := h.1
    omega

theorem eq_map_range (h : Consecutive a is b) :
    is = (List.range is.length).map fun k : Nat => a + k := by
  induction is generalizing a with
  | nil => rfl
  | cons i is ih =>
    obtain ⟨rfl, hrest⟩ := h
    rw [List.length_cons, List.range_succ_eq_map, List.map_cons, List.map_map]
    congr 1
    · simp
    · refine (ih hrest).trans (List.map_congr_left fun k _ => ?_)
      simp only [Function.comp_apply, Nat.cast_succ]
      omega

end Consecutive

namespace Analysis

variable {α β : Type} {s : Scope}

/-- In the scope `s` the step finds a mistake, or it gives something with `Q`. -/
def Meets (m : Analysis α) (s : Scope) (Q : α → Scope → Prop) : Prop :=
  match m s with
  | .ok (a, s') => Q a s'
  | .error (.semantic _) => True
  | .error (.fault _) => False

variable {m : Analysis α} {Q : α → Scope → Prop}
variable {P : α → Scope → Prop} {f : α → Analysis β} {a : α}

theorem Meets.imp (h : Meets m s P) (hPQ : ∀ a s', P a s' → Q a s') : Meets m s Q := by
  unfold Meets at h ⊢
  split at h
  · exact hPQ _ _ h
  · trivial
  · exact h

theorem Meets.bind {Q : β → Scope → Prop} (h : Meets m s P) (hf : ∀ a s', P a s' → Meets (f a) s' Q) :
    Meets (m >>= f) s Q := by
  unfold Meets at h
  change (match Except.bind (m s) fun p => f p.1 p.2 with
    | .ok (b, s') => Q b s'
    | .error (.semantic _) => True
    | .error (.fault _) => False)
  cases hm : m s with
  | ok p =>
    rw [hm] at h
    exact hf p.1 p.2 h
  | error e =>
    rw [hm] at h
    cases e with
    | semantic e => trivial
    | fault f => exact h

theorem meets_pure (h : Q a s) : Meets (pure a) s Q := h

theorem meets_reject {e : SemanticError} : Meets (reject e) s Q := trivial

theorem meets_set (s' : Scope) : Meets (set s' : Analysis PUnit) s (fun _ r => r = s') :=
  rfl

theorem meets_modify (f : Scope → Scope) :
    Meets (modify f : Analysis PUnit) s (fun _ s' => s' = f s) := rfl

/-- In the scope `s` the step finds a mistake, or it gives something with `P` and leaves the scope as
it is. -/
def Keeps (m : Analysis α) (s : Scope) (P : α → Prop) : Prop := Meets m s fun a s' => s' = s ∧ P a

theorem Keeps.bind {P : α → Prop} {Q : β → Scope → Prop} (h : Keeps m s P)
    (hf : ∀ a, P a → Meets (f a) s Q) : Meets (m >>= f) s Q :=
  Meets.bind h fun a _ ⟨heq, ha⟩ => heq ▸ hf a ha

theorem keeps_pure {P : α → Prop} (h : P a) : Keeps (pure a) s P := ⟨rfl, h⟩

theorem keeps_get : Keeps (get : Analysis Scope) s (fun a => a = s) := ⟨rfl, rfl⟩

theorem keeps_require (condition : Bool) (e : SemanticError) :
    Keeps (require condition e) s (fun _ => condition = true) := by
  unfold require
  split
  · next h => exact keeps_pure h
  · exact meets_reject

/-! ### Scopes -/

theorem meets_freshId :
    Meets freshId s (fun id s' => id = s.nextId ∧ s' = { s with nextId := s.nextId + 1 }) :=
  ⟨rfl, rfl⟩

theorem meets_declare (name : String) (m : Meaning) : Meets (declare name m) s (fun _ s' =>
      s.find? name = none ∧ s' = { s with names := (name, m) :: s.names }) := by
  refine keeps_get.bind fun scope hscope => ?_
  subst hscope
  refine (keeps_require _ _).bind fun _ hnew => ?_
  refine (meets_set _).imp fun _ s' hs' => ⟨?_, hs'⟩
  simpa using hnew

theorem keeps_lookUp (name : String) : Keeps (lookUp name) s (fun m => s.find? name = some m) := by
  refine keeps_get.bind ?_
  rintro _ rfl
  split
  · next m hm => exact keeps_pure hm
  · exact meets_reject

theorem meets_inBlock (h : Meets m s Q) :
    Meets (inBlock m) s (fun a s' => ∃ t, Q a t ∧ s' = { t with names := s.names }) := by
  refine keeps_get.bind ?_
  rintro _ rfl
  refine h.bind fun a t ht => ?_
  refine (meets_modify _).bind ?_
  rintro _ _ rfl
  exact meets_pure ⟨t, ht, rfl⟩

theorem meets_newVariable (name : String) (isConst : Bool) (type : Ty) :
    Meets (newVariable name isConst type) s (fun v s' =>
      v = ⟨s.nextId, name, isConst, type⟩ ∧ s' = { s with nextId := s.nextId + 1 }) := by
  refine meets_freshId.bind ?_
  rintro _ _ ⟨rfl, rfl⟩
  exact meets_pure ⟨rfl, rfl⟩

/-! ### Checks -/

theorem keeps_notConstant (n : Node) : Keeps (notConstant n) s (fun _ => ∀ f, n ≠ .fn f) := by
  cases n with
  | var v => exact (keeps_require _ _).imp fun _ _ h => ⟨h.1, by simp⟩
  | fn f => exact meets_reject
  | _ => exact keeps_pure (by simp)

theorem keeps_uniform (part : LiteralPart) (ns : List Node) :
    Keeps (uniform part ns) s (fun _ => True) := by
  cases ns with
  | nil => exact keeps_pure trivial
  | cons => exact (keeps_require _ _).imp fun _ _ h => ⟨h.1, trivial⟩

theorem keeps_argumentsFit (args : List Node) (ts : List Ty) :
    Keeps (argumentsFit args ts) s (fun _ => True) := by
  induction args generalizing ts with
  | nil => exact keeps_pure trivial
  | cons _ _ ih =>
    cases ts with
    | nil => exact keeps_pure trivial
    | cons t ts => exact (keeps_require _ _).bind fun _ _ => ih ts

theorem keeps_binaryType (left : Node) {op : BinaryOp} (hop : op.IsInfix ∨ op.IsUpdate)
    (right : Node) :
    Keeps (binaryType left op right) s (fun t => t = .boolean ∨ t = left.typeOf) := by
  cases op with
  | other => exact absurd hop (by simp [BinaryOp.IsInfix, BinaryOp.IsUpdate])
  | equal | notEqual => exact (keeps_require _ _).bind fun _ _ => keeps_pure (.inl rfl)
  | and | or | less | lessEq | greater | greaterEq =>
    exact (keeps_require _ _).bind fun _ _ => (keeps_require _ _).bind fun _ _ => keeps_pure (.inl rfl)
  | _ =>
    exact (keeps_require _ _).bind fun _ _ => (keeps_require _ _).bind fun _ _ => keeps_pure (.inr rfl)

theorem keeps_compoundTarget (left : Node) (op : BinaryOp) :
    Keeps (compoundTarget left op) s (fun _ => op.IsUpdate → ∀ f, left ≠ .fn f) := by
  cases op with
  | addAssign | subAssign => exact (keeps_notConstant left).imp fun _ _ h => ⟨h.1, fun _ => h.2⟩
  | _ => exact keeps_pure fun h => absurd h id

theorem keeps_unaryType {op : UnaryOp} (operand : Node) : Keeps (unaryType op operand) s (fun t =>
      (t = .boolean ∨ t = operand.typeOf) ∧ (op.IsUpdate → ∀ f, operand ≠ .fn f)) := by
  cases op with
  | increment | decrement =>
    refine (keeps_require _ _).bind fun _ _ => ?_
    exact (keeps_notConstant operand).bind fun _ hoperand => keeps_pure ⟨.inr rfl, fun _ => hoperand⟩
  | not => exact (keeps_require _ _).bind fun _ _ => keeps_pure ⟨.inl rfl, fun h => absurd h id⟩
  | _ => exact (keeps_require _ _).bind fun _ _ => keeps_pure ⟨.inr rfl, fun h => absurd h id⟩

theorem keeps_calleeSignature (callee : Node) :
    Keeps (calleeSignature callee) s (fun signature => callee.typeOf = signature.ty) := by
  unfold calleeSignature
  split
  · next params result heq => exact keeps_pure heq
  · exact meets_reject

end Analysis

end LemonScript
