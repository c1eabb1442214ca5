import LemonScript.Proofs.Semantics.Record
/-!
# Memory with one more cell

A cell that nothing refers to changes no run: when one is put in somewhere, the addresses behind it move
up by one, and apart from that a run does what it did without it. Nor does a run make up an address: what
it works on stays closed, which means that all addresses in it lead to a cell.
-/

namespace LemonScript

open Semantics
open List (forall_mem_cons length_map map_append)

/-- Where a cell is when another one was put in at an address. -/
def shift (a b : Nat) : Nat := if b < a then b else b + 1

variable {s : State} {d : Cell} {v : Value} {es : List (Value × Value)}

theorem shift_of_lt {a b : Nat} (h : b < a) : shift a b = b := if_pos h

theorem shift_inj {a b b' : Nat} : shift a b = shift a b' ↔ b = b' := by
  unfold shift
  split <;> split <;> omega

/-- Data that may hold addresses. -/
class Located (α : Type) where
  /-- The data when a cell was put in at an address. -/
  moved : Nat → α → α
  /-- All addresses are below a bound. -/
  Within : Nat → α → Prop
  mono {m n : Nat} {x : α} (hmn : m ≤ n) (hx : Within m x) : Within n x
  moved_eq {a : Nat} {x : α} (hx : Within a x) : moved a x = x

namespace Located

variable {α β : Type}

/-- Data without addresses. -/
abbrev still (α : Type) : Located α where
  moved _ x := x
  Within _ _ := True
  mono _ _ := trivial
  moved_eq _ := rfl

instance : Located Unit := still Unit
instance : Located Bool := still Bool
instance : Located Int := still Int

instance : Located Address where
  moved := shift
  Within n b := b < n
  mono hmn hx := lt_of_lt_of_le hx hmn
  moved_eq := shift_of_lt

instance [Located α] [Located β] : Located (α × β) where
  moved a p := (moved a p.1, moved a p.2)
  Within n p := Within n p.1 ∧ Within n p.2
  mono hmn hx := ⟨mono hmn hx.1, mono hmn hx.2⟩
  moved_eq hx := Prod.ext (moved_eq hx.1) (moved_eq hx.2)

instance [Located α] : Located (List α) where
  moved a l := l.map (moved a)
  Within n l := ∀ x ∈ l, Within n x
  mono hmn hl x hx := mono hmn (hl x hx)
  moved_eq {_ l} hl := (List.map_congr_left fun x hx => moved_eq (hl x hx)).trans (List.map_id l)

instance : Located Value where
  moved a
    | .ref b => .ref (shift a b)
    | v => v
  Within n
    | .ref b => b < n
    | _ => True
  mono {m n x} hmn hx := by
    cases x with
    | ref b => exact lt_of_lt_of_le hx hmn
    | _ => trivial
  moved_eq {a x} hx := by
    cases x with
    | ref b => exact congrArg Value.ref (shift_of_lt hx)
    | _ => rfl

instance : Located Cell where
  moved a
    | .var v => .var (moved a v)
    | .array xs => .array (moved a xs)
    | .map es => .map (moved a es)
    | .closure code env => .closure code (moved a env)
  Within n
    | .var v => Within n v
    | .array xs => Within n xs
    | .map es => Within n es
    | .closure _ env => Within n env
  mono {m n x} hmn hx := by cases x <;> exact mono hmn hx
  moved_eq {a x} hx := by
    cases x with
    | var v => exact congrArg Cell.var (moved_eq hx)
    | array xs => exact congrArg Cell.array (moved_eq hx)
    | map es => exact congrArg Cell.map (moved_eq hx)
    | closure code env => exact congrArg (Cell.closure code) (moved_eq hx)

instance : Located Flow where
  moved a
    | .back v => .back (moved a v)
    | flow => flow
  Within n
    | .back v => Within n v
    | _ => True
  mono {m n x} hmn hx := by
    cases x with
    | back v => exact mono (α := Value) hmn hx
    | _ => trivial
  moved_eq {a x} hx := by
    cases x with
    | back v => exact congrArg Flow.back (moved_eq hx)
    | _ => rfl

end Located

open Located

/-! ### Cells that are put in -/

def inserted (a : Nat) (c : Cell) (cells : List Cell) : List Cell := cells.take a ++ c :: cells.drop a

section Inserted

variable {a b : Nat} {c d : Cell} {cells : List Cell}

theorem length_inserted : (inserted a c cells).length = cells.length + 1 := by
  simp only [inserted, List.length_append, List.length_cons, List.length_take, List.length_drop]
  omega

theorem getElem?_inserted (ha : a ≤ cells.length) (i : Nat) :
    (inserted a c cells)[i]? = if i < a then cells[i]? else if i = a then some c else cells[i - 1]? := by
  have hlength : (cells.take a).length = a := List.length_take_of_le ha
  unfold inserted
  split
  · next hi => rw [List.getElem?_append_left (by omega), List.getElem?_take_of_lt hi]
  · rw [List.getElem?_append_right (by omega), hlength]
    split
    · next hi => simp [hi]
    · rw [show i - a = (i - 1 - a) + 1 by omega, List.getElem?_cons_succ, List.getElem?_drop]
      congr 1
      omega

theorem getElem?_inserted_self (ha : a ≤ cells.length) : (inserted a c cells)[a]? = some c := by
  rw [getElem?_inserted ha, if_neg (Nat.lt_irrefl a), if_pos rfl]

theorem getElem?_inserted_shift (ha : a ≤ cells.length) : (inserted a c cells)[shift a b]? = cells[b]? := by
  rw [getElem?_inserted ha]
  unfold shift
  split
  · rfl
  · next h => rw [if_neg (by omega), if_neg (by omega), Nat.add_sub_cancel]

theorem inserted_append (ha : a ≤ cells.length) : inserted a c cells ++ [d] = inserted a c (cells ++ [d]) := by
  unfold inserted
  rw [List.take_append_of_le_length ha, List.drop_append_of_le_length ha]
  simp

theorem inserted_length : inserted cells.length c cells = cells ++ [c] := by
  simp [inserted]

theorem inserted_set (ha : a ≤ cells.length) :
    (inserted a c cells).set (shift a b) d = inserted a c (cells.set b d) := by
  refine List.ext_getElem? fun i => ?_
  rw [List.getElem?_set, getElem?_inserted ha, length_inserted,
    getElem?_inserted (ha.trans_eq List.length_set.symm)]
  simp only [List.getElem?_set]
  unfold shift
  split_ifs <;> first | rfl | omega

theorem inserted_set_self (ha : a ≤ cells.length) : (inserted a c cells).set a d = inserted a d cells := by
  unfold inserted
  rw [List.set_append_right _ _ (by rw [List.length_take_of_le ha]), List.length_take_of_le ha,
    Nat.sub_self, List.set_cons_zero]

end Inserted

/-! ### Steps -/

def Semantics.State.moved (a : Nat) (c : Cell) (s : State) : State :=
  ⟨inserted a c (Located.moved a s.memory), s.output⟩

def Semantics.State.Closed (s : State) : Prop := Within s.memory.length s.memory

variable {α β : Type} [Located α] [Located β] {a : Nat} {c : Cell} {k : Nat}

/-- An end of a step and its end on the memory with one more cell. -/
inductive MovesTo (a : Nat) (c : Cell) (n : Nat) : Except Stop (α × State) → Except Stop (α × State) → Prop
  | ok {x : α} {t : State} (hgrows : n ≤ t.memory.length) (ht : t.Closed) (hx : Within t.memory.length x) :
    MovesTo a c n (.ok (x, t)) (.ok (moved a x, t.moved a c))
  | error (reason : Stop) : MovesTo a c n (.error reason) (.error reason)

/-- From every closed state with at least `k` cells, the second step does on the memory with one more cell
what the first one does without it, and the state stays closed. -/
def Moves (a : Nat) (c : Cell) (k : Nat) (m m' : Run α) : Prop :=
  ∀ s : State, a ≤ s.memory.length → k ≤ s.memory.length → s.Closed →
    MovesTo a c s.memory.length (m s) (m' (s.moved a c))

theorem moves_pure {x : α} (hx : Within k x) : Moves a c k (pure x) (pure (moved a x)) :=
  fun _ _ hk hs => .ok le_rfl hs (mono hk hx)

theorem moves_stop (reason : Stop) : Moves a c k (stop reason : Run α) (stop reason) :=
  fun _ _ _ _ => .error reason

theorem Moves.mono {m m' : Run α} (h : Moves a c k m m') {j : Nat} (hle : k ≤ j) : Moves a c j m m' :=
  fun s ha hj hs => h s ha (hle.trans hj) hs

theorem Moves.bind {m m' : Run α} {f f' : α → Run β} (hm : Moves a c k m m')
    (hf : ∀ {j x}, k ≤ j → Within j x → Moves a c j (f x) (f' (moved a x))) :
    Moves a c k (m >>= f) (m' >>= f') := by
  intro s ha hk hs
  change MovesTo a c _ (Except.bind (m s) _) (Except.bind (m' (s.moved a c)) _)
  generalize hms : m s = end₁, hms' : m' (s.moved a c) = end₂
  have h := hms ▸ hms' ▸ hm s ha hk hs
  cases h with
  | error reason => exact .error reason
  | @ok x t hgrows ht hx =>
    have hrest := hf (hk.trans hgrows) hx t (ha.trans hgrows) le_rfl ht
    change MovesTo a c _ (f x t) (f' (moved a x) (t.moved a c))
    generalize f x t = end₃, f' (moved a x) (t.moved a c) = end₄ at hrest
    cases hrest with
    | error reason => exact .error reason
    | ok hgrows' hu hy => exact .ok (hgrows.trans hgrows') hu hy

theorem getElem?_moved (ha : a ≤ s.memory.length) (b : Address) :
    (s.moved a c).memory[shift a b]? = s.memory[b]?.map (moved a) := by
  have ha : a ≤ (moved a s.memory).length := ha.trans_eq (length_map _).symm
  exact (getElem?_inserted_shift ha).trans List.getElem?_map

theorem moves_cellAt (b : Address) : Moves a c k (cellAt b) (cellAt (shift a b)) := by
  intro s ha _ hs
  unfold cellAt
  rw [getElem?_moved ha]
  cases hcell : s.memory[b]? with
  | none => exact .error _
  | some d => exact .ok le_rfl hs (hs d (List.mem_of_getElem? hcell))

theorem moves_store (b : Address) (hd : Within k d) :
    Moves a c k (store b d) (store (shift a b) (moved a d)) := by
  intro s ha hk hs
  have hmoved : { s.moved a c with memory := (s.moved a c).memory.set (shift a b) (moved a d) } =
      State.moved a c { s with memory := s.memory.set b d } := by
    have ha : a ≤ (moved a s.memory).length := ha.trans_eq (length_map _).symm
    unfold State.moved
    dsimp only
    rw [inserted_set ha, show moved a (s.memory.set b d) = (moved a s.memory).set b (moved a d) from List.map_set]
  unfold store
  rw [hmoved]
  refine .ok (by simp) (fun e he => ?_) trivial
  dsimp only at he ⊢
  rw [List.length_set]
  rcases List.mem_or_eq_of_mem_set he with he | rfl
  · exact hs e he
  · exact mono hk hd

theorem moved_append (ha : a ≤ s.memory.length) (d : Cell) :
    { s.moved a c with memory := (s.moved a c).memory ++ [moved a d] } =
      State.moved a c { s with memory := s.memory ++ [d] } := by
  have ha : a ≤ (moved a s.memory).length := ha.trans_eq (length_map _).symm
  unfold State.moved
  dsimp only
  rw [inserted_append ha, show moved a (s.memory ++ [d]) = moved a s.memory ++ [moved a d] from map_append]

theorem length_moved (ha : a ≤ s.memory.length) :
    (s.moved a c).memory.length = shift a s.memory.length := by
  rw [State.moved, length_inserted, show (moved a s.memory).length = s.memory.length from length_map _, shift,
    if_neg (by omega)]

theorem Semantics.State.Closed.append (hs : s.Closed) (hd : Within (s.memory.length + 1) d) :
    State.Closed { s with memory := s.memory ++ [d] } := by
  intro e he
  dsimp only at he ⊢
  rw [List.length_append, List.length_singleton]
  rcases List.mem_append.mp he with he | he
  · exact mono (Nat.le_succ _) (hs e he)
  · rw [List.mem_singleton.mp he]
    exact hd

theorem moves_allocate (hd : Within k d) : Moves a c k (allocate d) (allocate (moved a d)) := by
  intro s ha hk hs
  unfold allocate
  rw [moved_append ha, length_moved ha]
  exact .ok (by simp) (hs.append (mono (hk.trans (Nat.le_succ _)) hd)) (show _ < _ by simp)

theorem moves_allocateFunction (code : Code) {env : Env} (henv : Within k env) :
    Moves a c k (allocateFunction code env) (allocateFunction code (moved a env)) := by
  intro s ha hk hs
  have hinner : Within (s.memory.length + 1) ((code.id, s.memory.length) :: env) :=
    forall_mem_cons.mpr ⟨⟨trivial, Nat.lt_succ_self _⟩, mono (hk.trans (Nat.le_succ _)) henv⟩
  unfold allocateFunction
  dsimp only
  rw [length_moved ha]
  change MovesTo a c _ _ (.ok (moved a ((code.id, s.memory.length) :: env),
    { s.moved a c with
      memory := (s.moved a c).memory ++ [moved a (Cell.closure code ((code.id, s.memory.length) :: env))] }))
  rw [moved_append ha]
  exact .ok (by simp) (hs.append hinner) (by simpa using hinner)

theorem lookup_moved (env : Env) (id : Int) : (moved a env : Env).lookup id = (env.lookup id).map (shift a) := by
  induction env with
  | nil => rfl
  | cons e env ih =>
    change List.lookup id ((e.1, shift a e.2) :: moved a env) = _
    rw [List.lookup_cons, List.lookup_cons]
    split
    · rfl
    · exact ih

theorem moves_addressOf {env : Env} (henv : Within k env) (id : Int) :
    Moves a c k (addressOf env id) (addressOf (moved a env) id) := by
  unfold addressOf
  split
  · exact moves_stop _
  · rw [lookup_moved]
    cases hfound : env.lookup id with
    | none => exact moves_stop _
    | some b =>
      obtain ⟨l, l', rfl, -⟩ := List.lookup_eq_some_iff.mp hfound
      have hb : Within k b := (henv (id, b) (by simp)).2
      exact moves_pure hb

theorem moves_readVar (b : Address) : Moves a c k (readVar b) (readVar (shift a b)) :=
  (moves_cellAt b).bind fun {_ d} _ hd => by
    cases d with
    | var v => exact moves_pure (x := v) hd
    | _ => exact moves_stop _

theorem moves_writeVar (b : Address) (hv : Within k v) :
    Moves a c k (writeVar b v) (writeVar (shift a b) (moved a v)) :=
  (moves_cellAt b).bind fun {_ d} hle _ => by
    cases d with
    | var _ => exact moves_store b (d := .var v) (mono hle hv)
    | _ => exact moves_stop _

theorem moves_functionAt (b : Address) (hb : b < k) : Moves a c k (functionAt b) (functionAt (shift a b)) :=
  (moves_cellAt b).bind fun {_ d} hle _ => by
    cases d with
    | closure => exact moves_pure (x := Value.ref b) (lt_of_lt_of_le hb hle)
    | _ => exact moves_stop _

theorem moves_bindAll : ∀ (ids : List Int) {vs : List Value} {env : Env} {k : Nat}, Within k vs → Within k env →
    Moves a c k (bindAll ids vs env) (bindAll ids (moved a vs) (moved a env))
  | [], [], _, _, _, henv => moves_pure henv
  | id :: ids, v :: vs, env, _, hvs, henv => by
    obtain ⟨hv, hvs⟩ := forall_mem_cons.mp hvs
    refine (moves_allocate (d := .var v) hv).bind fun {_ b} hle hb => ?_
    have hinner : Within _ ((id, b) :: env) := forall_mem_cons.mpr ⟨⟨trivial, hb⟩, mono hle henv⟩
    exact moves_bindAll ids (mono hle hvs) hinner
  | [], _ :: _, _, _, _, _ | _ :: _, [], _, _, _, _ => moves_stop _

/-! ### Operators -/

theorem moves_orFault {x : Option α} (h : ∀ v, x = some v → Within 0 v) :
    Moves a c k (orFault x) (orFault x) := by
  cases x with
  | none => exact moves_stop _
  | some v =>
    have hv := h v rfl
    have hpure := moves_pure (a := a) (c := c) (mono (Nat.zero_le k) hv)
    rwa [moved_eq (mono (Nat.zero_le a) hv)] at hpure

theorem moves_truth (v : Value) : Moves a c k (truth v) (truth (moved a v)) := by
  cases v with
  | bool b => exact moves_pure (x := b) trivial
  | _ => exact moves_stop _

theorem same_moved (x y : Value) : same (moved a x) (moved a y) = same x y := by
  cases x <;> cases y <;> try rfl
  next b b' =>
    change (shift a b == shift a b') = (b == b')
    rw [Bool.eq_iff_iff, beq_iff_eq, beq_iff_eq, shift_inj]

theorem operate_moved (op : BinaryOp) (x y : Value) : operate op (moved a x) (moved a y) = operate op x y := by
  have hunset (v : Value) : isUnset (moved a v) = isUnset v := by cases v <;> rfl
  unfold operate
  rw [hunset, hunset, same_moved]
  split
  · rfl
  · rfl
  · cases x <;> cases y <;> rfl

theorem within_operate {op : BinaryOp} {x y : Value} (h : operate op x y = some v) :
    Within 0 v := by
  cases v with
  | ref b =>
    unfold operate at h
    split at h
    · split at h <;> cases h
    · split at h <;> cases h
    · split at h
      · unfold onInts at h
        split at h <;> first | cases h | (split at h <;> cases h)
      · unfold onFloats at h
        split at h <;> cases h
      · unfold onStrings at h
        split at h <;> cases h
      · cases h
  | _ => trivial

theorem moves_operate (op : BinaryOp) (x y : Value) :
    Moves a c k (orFault (operate op x y)) (orFault (operate op (moved a x) (moved a y))) := by
  rw [operate_moved]
  exact moves_orFault fun v => within_operate

theorem moves_operateUnary (op : UnaryOp) (x : Value) :
    Moves a c k (orFault (operateUnary op x)) (orFault (operateUnary op (moved a x))) := by
  rw [show operateUnary op (moved a x) = operateUnary op x by cases x <;> cases op <;> rfl]
  refine moves_orFault fun v hv => ?_
  unfold operateUnary at hv
  split at hv <;> cases hv <;> trivial

theorem moves_stepped (op : UnaryOp) (x : Value) :
    Moves a c k (orFault (stepped op x)) (orFault (stepped op (moved a x))) := by
  rw [show stepped op (moved a x) = stepped op x by cases x <;> cases op <;> rfl]
  refine moves_orFault fun v hv => ?_
  unfold stepped at hv
  split at hv <;> cases hv <;> trivial

/-! ### Arrays and maps -/

theorem moves_elementOf (x : Value) (i : Int) : Moves a c k (elementOf x i) (elementOf (moved a x) i) := by
  cases x with
  | ref b =>
    refine (moves_cellAt b).bind fun {j d} _ hd => ?_
    cases d with
    | array xs =>
      have hpure : Moves a c j (pure (xs.getD i.toNat .unset)) (pure ((moved a xs).getD i.toNat .unset)) := by
        rw [show (moved a xs).getD i.toNat .unset = moved a (xs.getD i.toNat .unset) from
          List.getD_map xs .unset (moved a)]
        refine moves_pure ?_
        rw [List.getD_eq_getElem?_getD]
        cases hfound : xs[i.toNat]? with
        | none => trivial
        | some v => exact hd v (List.mem_of_getElem? hfound)
      change Moves a c j (if i < 0 then stop .fault else _) (if i < 0 then stop .fault else _)
      split
      · exact moves_stop _
      · exact hpure
    | _ => exact moves_stop _
  | _ => exact moves_stop _

theorem within_setAt {xs : List Value} (hxs : Within k xs) (hv : Within k v) (i : Nat) :
    Within k (setAt xs i v) := by
  intro x hx
  unfold setAt at hx
  split at hx
  · rcases List.mem_or_eq_of_mem_set hx with hx | rfl
    · exact hxs x hx
    · exact hv
  · simp only [List.append_assoc, List.mem_append, List.mem_replicate, List.mem_singleton] at hx
    rcases hx with hx | ⟨-, rfl⟩ | rfl
    · exact hxs x hx
    · trivial
    · exact hv

theorem setAt_moved (xs : List Value) (i : Nat) (v : Value) :
    setAt (moved a xs) i (moved a v) = moved a (setAt xs i v) := by
  have hlength : (moved a xs).length = xs.length := length_map _
  unfold setAt
  rw [hlength]
  split
  · exact List.map_set.symm
  · change _ = List.map _ _
    rw [map_append, map_append, List.map_replicate]
    rfl

theorem moves_setElement (x : Value) (i : Int) (hv : Within k v) :
    Moves a c k (setElement x i v) (setElement (moved a x) i (moved a v)) := by
  cases x with
  | ref b =>
    refine (moves_cellAt b).bind fun {j d} hle hd => ?_
    cases d with
    | array xs =>
      change Moves a c j (if i < 0 then stop .fault else _)
        (if i < 0 then stop .fault else store (shift a b) (.array (setAt (moved a xs) i.toNat (moved a v))))
      rw [setAt_moved]
      split
      · exact moves_stop _
      · exact moves_store b (d := .array (setAt xs i.toNat v)) (within_setAt hd (mono hle hv) _)
    | _ => exact moves_stop _
  | _ => exact moves_stop _

theorem valueAt_moved (key : Value) (es : List (Value × Value)) :
    valueAt (moved a key) (moved a es) = moved a (valueAt key es) := by
  induction es with
  | nil => rfl
  | cons e es ih =>
    change (if same (moved a e.1) (moved a key) then moved a e.2 else valueAt (moved a key) (moved a es)) =
      moved a (if same e.1 key then e.2 else valueAt key es)
    rw [same_moved]
    split
    · rfl
    · exact ih

theorem within_valueAt (hes : Within k es) (key : Value) : Within k (valueAt key es) := by
  induction es with
  | nil => trivial
  | cons e es ih =>
    obtain ⟨he, hes⟩ := forall_mem_cons.mp hes
    unfold valueAt
    split
    · exact he.2
    · exact ih hes

theorem insertAt_moved (key v : Value) (es : List (Value × Value)) :
    insertAt (moved a key) (moved a v) (moved a es) = moved a (insertAt key v es) := by
  induction es with
  | nil => rfl
  | cons e es ih =>
    change (if same (moved a e.1) (moved a key) then (moved a e.1, moved a v) :: moved a es
        else (moved a e.1, moved a e.2) :: insertAt (moved a key) (moved a v) (moved a es)) =
      moved a (if same e.1 key then (e.1, v) :: es else (e.1, e.2) :: insertAt key v es)
    rw [same_moved, ih]
    split <;> rfl

theorem within_insertAt {key : Value} (hes : Within k es) (hkey : Within k key) (hv : Within k v) :
    Within k (insertAt key v es) := by
  induction es with
  | nil => exact List.forall_mem_singleton.mpr ⟨hkey, hv⟩
  | cons e es ih =>
    obtain ⟨he, hes⟩ := forall_mem_cons.mp hes
    unfold insertAt
    split
    · exact forall_mem_cons.mpr ⟨⟨he.1, hv⟩, hes⟩
    · exact forall_mem_cons.mpr ⟨he, ih hes⟩

theorem mapOf_moved (es : List (Value × Value)) : mapOf (moved a es) = moved a (mapOf es) := by
  have hfold : ∀ acc : List (Value × Value),
      (moved a es).foldl (fun es e => insertAt e.1 e.2 es) (moved a acc) =
        moved a (es.foldl (fun es e => insertAt e.1 e.2 es) acc) := by
    induction es with
    | nil => exact fun _ => rfl
    | cons e es ih =>
      intro acc
      change (moved a es).foldl _ (insertAt (moved a e.1) (moved a e.2) (moved a acc)) = _
      rw [insertAt_moved]
      exact ih _
  exact hfold []

theorem within_mapOf (hes : Within k es) : Within k (mapOf es) := by
  have hfold : ∀ acc : List (Value × Value), Within k acc →
      Within k (es.foldl (fun es e => insertAt e.1 e.2 es) acc) := by
    induction es with
    | nil => exact fun _ h => h
    | cons e es ih =>
      intro acc hacc
      obtain ⟨he, hes⟩ := forall_mem_cons.mp hes
      exact ih hes _ (within_insertAt hacc he.1 he.2)
  exact hfold [] (List.forall_mem_nil _)

theorem moves_entryOf (x key : Value) : Moves a c k (entryOf x key) (entryOf (moved a x) (moved a key)) := by
  cases x with
  | ref b =>
    refine (moves_cellAt b).bind fun {j d} _ hd => ?_
    cases d with
    | map es =>
      change Moves a c j (pure (valueAt key es)) (pure (valueAt (moved a key) (moved a es)))
      rw [valueAt_moved]
      exact moves_pure (within_valueAt hd key)
    | _ => exact moves_stop _
  | _ => exact moves_stop _

theorem moves_setEntry (x : Value) {key : Value} (hkey : Within k key) (hv : Within k v) :
    Moves a c k (setEntry x key v) (setEntry (moved a x) (moved a key) (moved a v)) := by
  cases x with
  | ref b =>
    refine (moves_cellAt b).bind fun {j d} hle hd => ?_
    cases d with
    | map es =>
      change Moves a c j _ (store (shift a b) (.map (insertAt (moved a key) (moved a v) (moved a es))))
      rw [insertAt_moved]
      exact moves_store b (d := .map (insertAt key v es)) (within_insertAt hd (mono hle hkey) (mono hle hv))
    | _ => exact moves_stop _
  | _ => exact moves_stop _

/-! ### The library -/

theorem picture_moved (ha : a ≤ s.memory.length) (depth : Nat) (v : Value) :
    picture (s.moved a c).memory depth (moved a v) = picture s.memory depth v := by
  have hlist {γ : Type} [Located γ] (l : List γ) : List.Forall₂ (fun x x' => x = moved a x') (moved a l) l :=
    List.forall₂_map_left_iff.mpr (List.forall₂_same.mpr fun _ _ => rfl)
  induction depth generalizing v with
  | zero => cases v <;> rfl
  | succ depth ih =>
    cases v with
    | ref b =>
      change picture (s.moved a c).memory (depth + 1) (.ref (shift a b)) = _
      rw [picture, getElem?_moved ha, picture]
      cases s.memory[b]? with
      | none => rfl
      | some d =>
        cases d with
        | var _ => rfl
        | closure => rfl
        | array xs => exact congrArg (Option.map _) (mapM_eq (fun _ v hx => hx ▸ ih v) (hlist xs))
        | map es =>
          refine congrArg (Option.map _) (mapM_eq (fun e e' he => ?_) (hlist es))
          subst he
          unfold pairOf
          rw [show (moved a e').1 = moved a e'.1 from rfl, show (moved a e').2 = moved a e'.2 from rfl, ih, ih]
    | _ => rfl

theorem kindOf_moved (ha : a ≤ s.memory.length) (v : Value) :
    kindOf (s.moved a c).memory (moved a v) = kindOf s.memory v := by
  cases v with
  | ref b =>
    change kindOf (s.moved a c).memory (.ref (shift a b)) = _
    rw [kindOf, getElem?_moved ha, kindOf]
    cases s.memory[b]? with
    | none => rfl
    | some d => cases d <;> rfl
  | _ => rfl

theorem moves_libraryCall (depth : Nat) (id : Int) (xs : List Value) :
    Moves a c k (libraryCall depth id xs) (libraryCall depth id (moved a xs)) := by
  intro s ha hk hs
  match xs with
  | [] | _ :: _ :: _ => exact .error _
  | [v] =>
    change MovesTo a c _ _ (libraryCall depth id [moved a v] (s.moved a c))
    unfold libraryCall
    dsimp only
    rw [picture_moved ha, kindOf_moved ha]
    split
    · cases picture s.memory depth v with
      | none => exact .error _
      | some p => exact .ok (x := Value.unset) (t := { s with output := s.output ++ [p] }) le_rfl hs trivial
    · split
      · exact .ok (x := Value.string _) le_rfl hs trivial
      · exact .error _

end LemonScript
