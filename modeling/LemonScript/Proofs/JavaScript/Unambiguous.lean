import LemonScript.Proofs.JavaScript.Grouping
import LemonScript.Proofs.TypeInfo.Json
import LemonScript.Proofs.Typing.NamedParts
/-!
# The written expressions are unambiguous

What an expression is read as leaves nothing open but its types and the entities of its names. The types follow
from the parts of the expression, and the number in a name tells the entity. So two sound expressions that are
read alike are the same.
-/

namespace LemonScript

open Library (entities pi pour species)
open Bool (false_ne_true)

variable {op : BinaryOp} {t : Ty}

theorem BinaryOp.Types.unique {l r t' : Ty} (h : op.Types l r t) (h' : op.Types l r t') :
    t = t' := by
  cases op with
  | other => exact h.elim
  | equal | notEqual => exact h.2.trans h'.2.symm
  | _ => exact h.2.2.trans h'.2.2.symm

theorem UnaryOp.Types.unique {op : UnaryOp} {u t' : Ty} (h : op.Types u t) (h' : op.Types u t') :
    t = t' := by
  cases op with
  | _ => exact h.2.trans h'.2.symm

namespace JavaScript

variable {n m callee : Node} {op' : BinaryOp} {type type' : Ty}

theorem meetAll_of_subset {met ids : List Int} (h : ∀ id ∈ ids, id ∈ met) : meetAll met ids = met := by
  induction ids with
  | nil => rfl
  | cons id ids ih =>
    rw [List.forall_mem_cons] at h
    rw [meetAll, List.foldl_cons, meet, if_pos (List.contains_iff_mem.mpr h.1)]
    exact ih h.2

/-- The entities whose names are written for an expression. A function of the library has no name of its own
where it is called. -/
def writtenIds : Node → List Int
  | .fn f => [f.id]
  | n => n.mentions.map (·.id)

variable {R : Roster} {E : Vocabulary} {table : List Int}

theorem writtenIds_of_tree (h : Vocabulary.Tree E n) : writtenIds n = n.mentions.map (·.id) := by
  cases n with
  | fn f =>
    have hown : (Mention.ofFunction false f).own = [.ofFunction false f] :=
      Mention.own_of_not_isLibrary (E.own (id h : E.Has f.id f.name))
    rw [Node.mentions, hown]
    rfl
  | _ => rfl

/-- All that is known of an expression of an accepted program. -/
structure Legible (R : Roster) (E : Vocabulary) (n : Node) : Prop where
  sound : n.IsSound R
  simple : ∃ Γ, Scoped.Update Γ n ∨ Scoped.Expression Γ n
  part : Vocabulary.Part E n

/-- An expression whose names are in the table. -/
structure Covered (R : Roster) (E : Vocabulary) (table : List Int) (n : Node) : Prop extends Legible R E n where
  covered : ∀ id ∈ writtenIds n, id ∈ table

/-- The same is known of the parts of the expression, the functions of the library that are called in it apart. -/
theorem Covered.child {c : Node} (h : Covered R E table n) (hc : c ∈ n.children)
    (htree : Vocabulary.Tree E c) : Covered R E table c := by
  obtain ⟨Γ, hsimple⟩ := h.simple
  have hids : writtenIds n = n.mentions.map (·.id) := by
    cases n with
    | fn f => cases hc
    | _ => rfl
  have hchild : Scoped.Expression Γ c := hsimple.elim (·.children c hc) (·.children c hc)
  refine ⟨⟨h.sound.children c hc, ⟨Γ, .inr hchild⟩, .inr htree⟩, ?_⟩
  rw [writtenIds_of_tree htree]
  intro id hid
  apply h.covered
  rw [hids]
  exact List.map_subset _ (Scoped.mentions_subset hsimple c hc) hid

/-! ### Forms -/

inductive CallForm
  | printing
  | kind
  | plain
deriving DecidableEq

/-- What the outside of a text tells of an expression. -/
inductive Form
  | name
  | truth
  | number
  | string
  | operation
  | sign
  | call (c : CallForm)
  | array
  | map
  | element
deriving DecidableEq

def callForm : Node → CallForm
  | .fn f =>
    if f.id == pour.id then .printing else if f.id == species.id then .kind else .plain
  | _ => .plain

def nodeForm? : Node → Option Form
  | .var _ | .fn _ => some .name
  | .boolLit .. => some .truth
  | .intLit _ | .floatLit _ => some .number
  | .stringLit _ => some .string
  | .binary .. => some .operation
  | .unary .. => some .sign
  | .call callee _ _ => some (.call (callForm callee))
  | .arrayLit .. => some .array
  | .mapLit .. => some .map
  | .member .. | .property .. => some .element
  | _ => none

def termForm? : Term → Option Form
  | .word w => some (if (suffix? w).isSome then .name else .truth)
  | .field .. => some .name
  | .signed .typeof _ => some (.call .kind)
  | .number _ | .signed _ (.number _) => some .number
  | .string _ => some .string
  | .group (.operation ..) | .change .. => some .operation
  | .signed _ (.group _) | .crement .. => some .sign
  | .call (.field (.word w) _) _ => some (.call (if w = "console".toList then .printing else .plain))
  | .call .. => some (.call .plain)
  | .array _ => some .array
  | .object _ => some .map
  | .group (.index ..) => some .element
  | _ => none

theorem eq_of_termOf_field {t : Term} {name : List Char} (h : termOf table n = .field t name) :
    t = .word "Math".toList := by
  cases n with
  | var v =>
    rw [termOf, variableTerm] at h
    split at h
    · cases h
      rfl
    · cases h
  | intLit | floatLit =>
    rw [termOf, Term.negatedIf] at h
    split at h <;> cases h
  | binary | unary =>
    rw [termOf] at h
    split at h <;> cases h
  | call =>
    rw [termOf, callTerm.eq_def] at h
    split at h
    · split at h
      · cases h
      · split at h <;> cases h
    · cases h
  | _ => cases h

theorem callTerm_eq (callee : Node) (f : Term) (args : List Term) : callTerm callee f args =
    match callForm callee with
    | .printing => .call (.field (.word "console".toList) "log".toList) [.call (.word "__show".toList) args]
    | .kind => .signed .typeof (args.head?.getD f)
    | .plain => .call f args := by
  cases callee with
  | fn g =>
    rw [callTerm, callForm]
    split
    · rfl
    · split <;> rfl
  | _ => rfl

theorem termForm?_negatedIf (negative : Bool) (letters : List Char) :
    termForm? (.negatedIf negative (.number letters)) = some .number := by
  cases negative <;> rfl

theorem termForm?_name (id : Int) (name : String) : termForm? (nameTerm table id name) = some .name := by
  rw [nameTerm, termForm?, suffix?_nameText]
  rfl

theorem termForm?_call {f : Term} (h : ∀ t name, f = .field t name → t = .word "Math".toList) (args : List Term) :
    termForm? (.call f args) = some (.call .plain) := by
  cases f with
  | field t name =>
    rw [h t name rfl]
    rfl
  | _ => rfl

theorem termForm?_termOf (h : (nodeForm? n).isSome = true) :
    termForm? (termOf table n) = nodeForm? n := by
  cases n with
  | var v =>
    rw [termOf, variableTerm]
    split
    · rfl
    · exact termForm?_name v.id v.name
  | fn f => exact termForm?_name f.id f.name
  | boolLit _ value =>
    cases value with
    | true => exact show termForm? (.word "true".toList) = some .truth by decide
    | false => exact show termForm? (.word "false".toList) = some .truth by decide
  | intLit | floatLit => exact termForm?_negatedIf _ _
  | binary =>
    rw [termOf]
    split <;> rfl
  | unary op _ leading =>
    rw [termOf]
    cases leading with
    | true => cases op <;> rfl
    | false => rfl
  | call callee =>
    rw [termOf, callTerm_eq, nodeForm?]
    cases callForm callee with
    | printing => exact show termForm? (.call (.field (.word "console".toList) _) _) = _ by simp [termForm?]
    | kind => rfl
    | plain => exact termForm?_call (fun _ _ => eq_of_termOf_field) _
  | stringLit | arrayLit | mapLit | member | property => rfl
  | _ => cases h

theorem Covered.isSome_nodeForm? (h : Covered R E table n) : (nodeForm? n).isSome = true := by
  obtain ⟨Γ, hsimple⟩ := h.simple
  cases n with
  | var | fn | boolLit | intLit | floatLit | stringLit | binary | unary | call | arrayLit | mapLit | member
  | property => rfl
  | _ => exact hsimple.elim False.elim False.elim

theorem Covered.nodeForm?_eq (hn : Covered R E table n) (hm : Covered R E table m)
    (h : termOf table n = termOf table m) : nodeForm? n = nodeForm? m := by
  rw [← termForm?_termOf hn.isSome_nodeForm?, ← termForm?_termOf hm.isSome_nodeForm?, h]

/-! ### Names and literals -/

theorem id_eq_of_nameTerm {id id' : Int} {name name' : String} (hid : id ∈ table)
    (h : nameTerm table id name = nameTerm table id' name') : id = id' := by
  have hletters : (nameText table id name).toList = (nameText table id' name').toList := Term.word.inj h
  have hsuffix := suffix?_nameText table id name
  rw [hletters, suffix?_nameText, Option.some.injEq, Nat.succ_inj] at hsuffix
  exact (List.idxOf_inj hid).mp hsuffix.symm

def entityNode : Entity → Node
  | .var v => .var v
  | .fn f => .fn f

theorem termOf_entityNode {e : Entity} (h : R.Has e) : termOf table (entityNode e) =
    if e.id == pi.id then .field (.word "Math".toList) "PI".toList else nameTerm table e.id e.name := by
  cases e with
  | var v => rfl
  | fn f =>
    have hpi : Entity.var pi ∈ entities := by simp [entities, Library.constants]
    rw [if_neg]
    · rfl
    · intro hid
      cases R.unique h (R.library _ hpi) (beq_iff_eq.mp hid)

theorem eq_of_entities (e e' : Entity) (hn : Covered R E table (entityNode e)) (hm : Covered R E table (entityNode e'))
    (h : termOf table (entityNode e) = termOf table (entityNode e')) : entityNode e = entityNode e' := by
  have hknown : R.Has e := by cases e <;> exact hn.sound.self.known
  have hknown' : R.Has e' := by cases e' <;> exact hm.sound.self.known
  have hcovered : (e.id == pi.id) = false → e.id ∈ table := by
    intro hpi
    cases e with
    | fn f => exact hn.covered f.id (.head _)
    | var v =>
      have hhas : E.Has v.id v.name := by
        rcases hn.part with hlibrary | htree
        · cases hlibrary
        · exact htree.resolve_left (ne_of_beq_false hpi)
      have hown : (Mention.ofVariable false v).own = [.ofVariable false v] :=
        Mention.own_of_not_isLibrary (E.own hhas)
      apply hn.covered
      rw [entityNode, writtenIds, Node.mentions, hown]
      · exact .head _
      · exact nofun
  have hid : e.id = e'.id := by
    rw [termOf_entityNode hknown, termOf_entityNode hknown'] at h
    cases hpi : e.id == pi.id <;> cases hpi' : e'.id == pi.id <;> simp only [hpi, hpi'] at h
    · exact id_eq_of_nameTerm (hcovered hpi) h
    · cases h
    · cases h
    · exact (beq_iff_eq.mp hpi).trans (beq_iff_eq.mp hpi').symm
  rw [R.unique hknown hknown' hid]

theorem negatedIf_inj {negative negative' : Bool} {letters letters' : List Char}
    (h : Term.negatedIf negative (.number letters) = .negatedIf negative' (.number letters')) :
    negative = negative' ∧ letters = letters' := by
  cases negative <;> cases negative' <;> cases h <;> exact ⟨rfl, rfl⟩

theorem eq_of_ints {k k' : Int} (h : termOf table (.intLit k) = termOf table (.intLit k')) : k = k' := by
  obtain ⟨hsign, hdigits⟩ := negatedIf_inj h
  have habs : k.natAbs = k'.natAbs := toDigits_inj (List.append_cancel_right hdigits)
  have hiff : k < 0 ↔ k' < 0 := by simpa using hsign
  omega

theorem ne_of_int_float {k : Int} {x : Float} (hx : x.isFinite = true) :
    termOf table (.intLit k) ≠ termOf table (.floatLit x) := by
  intro h
  obtain ⟨n, hn, hbig⟩ := numeral?_magnitude hx
  rw [← (negatedIf_inj h).2, numeral?_big] at hn
  cases hn
  cases hbig

theorem eq_of_floats {x y : Float} (hx : x.isFinite = true) (hy : y.isFinite = true)
    (h : termOf table (.floatLit x) = termOf table (.floatLit y)) : x = y :=
  eq_of_magnitude hx hy (negatedIf_inj h).1 (negatedIf_inj h).2

theorem eq_of_strings {a b : String} (h : termOf table (.stringLit a) = termOf table (.stringLit b)) : a = b := by
  have hbody : a.toList.flatMap (jsonChar .plain) = b.toList.flatMap (jsonChar .plain) := Term.string.inj h
  have hread := JsonValue.stringBody?_jsonString .plain a.toList []
  rw [hbody, JsonValue.stringBody?_jsonString] at hread
  have hletters : b.toList = a.toList := by simpa using hread
  exact String.toList_inj.mp hletters.symm

/-! ### Operators -/

/-- The expression can be told from what it is read as. -/
def Tells (R : Roster) (E : Vocabulary) (table : List Int) (n : Node) : Prop :=
  ∀ m, Covered R E table n → Covered R E table m → termOf table n = termOf table m → n = m

theorem operator?_inj {o : Operator} (h : operator? op = some o) (h' : operator? op' = some o) :
    op = op' := by
  cases op <;> cases h <;> cases op' <;> cases h' <;> rfl

theorem isUpdate_of_operator? {l r : Ty} (htypes : op.Types l r t) (h : operator? op = none) :
    op.IsUpdate := by
  cases op with
  | addAssign | subAssign => trivial
  | other => exact htypes.elim
  | _ => cases h

theorem isUpdate_inj (h : op.IsUpdate) (h' : op'.IsUpdate)
    (hup : (op == .addAssign) = (op' == .addAssign)) : op = op' := by
  cases op with
  | addAssign | subAssign =>
    cases op' with
    | addAssign | subAssign => first | rfl | cases hup
    | _ => exact h'.elim
  | _ => exact h.elim

/-- An expression with a sign is no operation, and neither is it an element. -/
theorem termForm?_group_of_isSigned (h : n.isSigned = true) :
    termForm? (.group (termOf table n)) = none := by
  cases n with
  | intLit k =>
    have hneg : decide (k < 0) = true := h
    rw [termOf, hneg]
    rfl
  | floatLit x =>
    have hneg : isNegative x = true := h
    rw [termOf, hneg]
    rfl
  | unary _ _ leading =>
    have hleading : leading = true := h
    rw [termOf, hleading]
    rfl
  | _ => cases h

theorem leftOperand_inj (op : BinaryOp) (hn : (nodeForm? n).isSome = true)
    (hm : (nodeForm? m).isSome = true)
    (h : leftOperand op n.isSigned (termOf table n) = leftOperand op m.isSigned (termOf table m)) :
    termOf table n = termOf table m := by
  have hgroup {n m : Node} (hsigned : n.isSigned = true) (hm : (nodeForm? m).isSome = true) :
      .group (termOf table n) ≠ termOf table m := by
    intro h
    have hform : termForm? (termOf table m) = nodeForm? m := termForm?_termOf hm
    rw [← hform, ← h, termForm?_group_of_isSigned hsigned] at hm
    cases hm
  by_cases hpow : op = .pow
  · subst hpow
    cases hs : n.isSigned <;> cases hs' : m.isSigned <;> simp only [leftOperand, hs, hs'] at h
    · exact h
    · exact absurd h.symm (hgroup hs' hn)
    · exact absurd h (hgroup hs hm)
    · exact Term.group.inj h
  · simpa [leftOperand, hpow] using h

theorem tells_binary {left right : Node} (hleft : Tells R E table left)
    (hright : Tells R E table right) {left' right' : Node}
    (hn : Covered R E table (.binary left op right type))
    (hm : Covered R E table (.binary left' op' right' type'))
    (h : termOf table (.binary left op right type) = termOf table (.binary left' op' right' type')) :
    Node.binary left op right type = .binary left' op' right' type' := by
  have hntree : Vocabulary.Tree E (.binary left op right type) := hn.part.resolve_left false_ne_true
  have hmtree : Vocabulary.Tree E (.binary left' op' right' type') := hm.part.resolve_left false_ne_true
  have hl := hn.child (.head _) hntree.1
  have hl' := hm.child (.head _) hmtree.1
  have hr := hn.child (.tail _ (.head _)) hntree.2
  have hr' := hm.child (.tail _ (.head _)) hmtree.2
  have htypes : op.Types left.typeOf right.typeOf type := hn.sound.self.obeys
  have htypes' : op'.Types left'.typeOf right'.typeOf type' := hm.sound.self.obeys
  obtain ⟨rfl, hlterm, hrterm⟩ : op = op' ∧ termOf table left = termOf table left' ∧
      termOf table right = termOf table right' := by
    rw [termOf, termOf] at h
    cases ho : operator? op with
    | some o =>
      cases ho' : operator? op' with
      | some o' =>
        simp only [ho, ho', Term.group.injEq, Term.operation.injEq] at h
        obtain ⟨hlterm, rfl, hrterm⟩ := h
        obtain rfl := operator?_inj ho ho'
        exact ⟨rfl, leftOperand_inj op hl.isSome_nodeForm? hl'.isSome_nodeForm? hlterm, hrterm⟩
      | none =>
        simp only [ho, ho'] at h
        cases h
    | none =>
      cases ho' : operator? op' with
      | some o' =>
        simp only [ho, ho'] at h
        cases h
      | none =>
        simp only [ho, ho', Term.change.injEq] at h
        exact ⟨isUpdate_inj (isUpdate_of_operator? htypes ho) (isUpdate_of_operator? htypes' ho') h.2.1, h.1, h.2.2⟩
  obtain rfl := hleft left' hl hl' hlterm
  obtain rfl := hright right' hr hr' hrterm
  rw [htypes.unique htypes']

theorem sign_inj {op op' : UnaryOp} (h : op.IsSign) (h' : op'.IsSign)
    (hsign : (if op = .not then Sign.not else .minus) = if op' = .not then .not else .minus) : op = op' := by
  cases op with
  | neg | not =>
    cases op' with
    | neg | not => first | rfl | cases hsign
    | _ => exact h'.elim
  | _ => exact h.elim

theorem crement_inj {op op' : UnaryOp} (h : op.IsUpdate) (h' : op'.IsUpdate)
    (hup : (op == .increment) = (op' == .increment)) : op = op' := by
  cases op with
  | increment | decrement =>
    cases op' with
    | increment | decrement => first | rfl | cases hup
    | _ => exact h'.elim
  | _ => exact h.elim

theorem tells_unary {op : UnaryOp} {operand : Node} {leading : Bool}
    (hoperand : Tells R E table operand) {op' : UnaryOp} {operand' : Node} {leading' : Bool}
    (hn : Covered R E table (.unary op operand leading type))
    (hm : Covered R E table (.unary op' operand' leading' type'))
    (h : termOf table (.unary op operand leading type) = termOf table (.unary op' operand' leading' type')) :
    Node.unary op operand leading type = .unary op' operand' leading' type' := by
  have hc := hn.child (.head _) (hn.part.resolve_left false_ne_true)
  have hc' := hm.child (.head _) (hm.part.resolve_left false_ne_true)
  have htypes : op.Types operand.typeOf type := hn.sound.self.obeys
  have htypes' : op'.Types operand'.typeOf type' := hm.sound.self.obeys
  obtain ⟨rfl, rfl, hterm⟩ : op = op' ∧ leading = leading' ∧ termOf table operand = termOf table operand' := by
    rw [termOf, termOf] at h
    rcases hn.sound.self.canonical with ⟨hop, rfl⟩ | ⟨hop, rfl⟩ <;>
      rcases hm.sound.self.canonical with ⟨hop', rfl⟩ | ⟨hop', rfl⟩
    · obtain ⟨hsign, hgroup⟩ := Term.signed.inj h
      exact ⟨sign_inj hop hop' hsign, rfl, Term.group.inj hgroup⟩
    · cases h
    · cases h
    · obtain ⟨hterm, hup⟩ := Term.crement.inj h
      exact ⟨crement_inj hop hop' hup, rfl, hterm⟩
  obtain rfl := hoperand operand' hc hc' hterm
  rw [htypes.unique htypes']

/-! ### Collections and elements -/

theorem eq_of_map_eq {α β : Type} {f : α → β} {l l' : List α} (hf : ∀ a ∈ l, ∀ b ∈ l', f a = f b → a = b)
    (h : l.map f = l'.map f) : l = l' := by
  induction l generalizing l' with
  | nil => exact (List.map_eq_nil_iff.mp h.symm).symm
  | cons a l ih =>
    cases l' with
    | nil => cases h
    | cons b l' =>
      rw [List.map_cons, List.map_cons, List.cons.injEq] at h
      rw [hf a (.head _) b (.head _) h.1, ih (fun a ha b hb => hf a (.tail _ ha) b (.tail _ hb)) h.2]

theorem tells_optional {l l' : Option (List Node)} (hl : ∀ n ∈ l.getD [], Covered R E table n)
    (hl' : ∀ n ∈ l'.getD [], Covered R E table n) (htells : ∀ n ∈ l.getD [], Tells R E table n)
    (hsome : l.isSome = true) (hsome' : l'.isSome = true) (h : optionalTerms table l = optionalTerms table l') :
    l = l' := by
  obtain ⟨ns, rfl⟩ := Option.isSome_iff_exists.mp hsome
  obtain ⟨ns', rfl⟩ := Option.isSome_iff_exists.mp hsome'
  rw [optionalTerms_eq_map, optionalTerms_eq_map] at h
  exact congrArg some (eq_of_map_eq (fun n hn m hm => htells n hn m (hl n hn) (hl' m hm)) h)

theorem tells_array {elements elements' : Option (List Node)}
    (helements : ∀ n ∈ elements.getD [], Tells R E table n)
    (hn : Covered R E table (.arrayLit elements type))
    (hm : Covered R E table (.arrayLit elements' type'))
    (h : termOf table (.arrayLit elements type) = termOf table (.arrayLit elements' type')) :
    Node.arrayLit elements type = .arrayLit elements' type' := by
  have hntree := Vocabulary.optional_iff.mp (hn.part.resolve_left false_ne_true)
  have hmtree := Vocabulary.optional_iff.mp (hm.part.resolve_left false_ne_true)
  obtain rfl := tells_optional (fun n hmem => hn.child hmem (hntree n hmem))
    (fun n hmem => hm.child hmem (hmtree n hmem)) helements hn.sound.self.canonical hm.sound.self.canonical
    (Term.array.inj h)
  rw [hn.sound.self.obeys.2, hm.sound.self.obeys.2]

theorem tells_map {entries entries' : List (Entry Node)}
    (hentries : ∀ n ∈ entries.flatMap Entry.children, Tells R E table n)
    (hn : Covered R E table (.mapLit entries type))
    (hm : Covered R E table (.mapLit entries' type'))
    (h : termOf table (.mapLit entries type) = termOf table (.mapLit entries' type')) :
    Node.mapLit entries type = .mapLit entries' type' := by
  have hntree := Vocabulary.entries_iff.mp (hn.part.resolve_left false_ne_true)
  have hmtree := Vocabulary.entries_iff.mp (hm.part.resolve_left false_ne_true)
  have hterms : entryTerms table entries = entryTerms table entries' := Term.object.inj h
  rw [entryTerms_eq_map, entryTerms_eq_map] at hterms
  have hkeys {l : List (Entry Node)} {e : Entry Node} (he : e ∈ l) : e.key ∈ l.flatMap Entry.children :=
    List.mem_flatMap.mpr ⟨e, he, .head _⟩
  have hvalues {l : List (Entry Node)} {e : Entry Node} (he : e ∈ l) : e.value ∈ l.flatMap Entry.children :=
    List.mem_flatMap.mpr ⟨e, he, .tail _ (.head _)⟩
  have hsame {n m : Node} (hmem : n ∈ entries.flatMap Entry.children) (hmem' : m ∈ entries'.flatMap Entry.children)
      (hterm : termOf table n = termOf table m) : n = m :=
    hentries n hmem m (hn.child hmem (hntree n hmem)) (hm.child hmem' (hmtree m hmem')) hterm
  obtain rfl : entries = entries' := by
    refine eq_of_map_eq (fun e he e' he' heq => ?_) hterms
    rw [Prod.mk.injEq] at heq
    cases e
    cases e'
    exact Entry.mk.injEq .. ▸ ⟨hsame (hkeys he) (hkeys he') heq.1, hsame (hvalues he) (hvalues he') heq.2⟩
  rw [hn.sound.self.obeys.2.2, hm.sound.self.obeys.2.2]

theorem base_eq_of_element {base base' : Node} {key key' : Term} (hbase : Tells R E table base)
    (hn : Covered R E table base) (hm : Covered R E table base')
    (h : Term.group (.index (termOf table base) key) = .group (.index (termOf table base') key')) :
    base = base' ∧ key = key' := by
  rw [Term.group.injEq, Term.index.injEq] at h
  exact ⟨hbase base' hn hm h.1, h.2⟩

theorem tells_member {array : Node} {index : Option Int} (harray : Tells R E table array)
    {array' : Node} {index' : Option Int} (hn : Covered R E table (.member array index type))
    (hm : Covered R E table (.member array' index' type'))
    (h : termOf table (.member array index type) = termOf table (.member array' index' type')) :
    Node.member array index type = .member array' index' type' := by
  have hbase := hn.child (.head _) (hn.part.resolve_left false_ne_true)
  have hbase' := hm.child (.head _) (hm.part.resolve_left false_ne_true)
  obtain ⟨rfl, hindex⟩ := base_eq_of_element harray hbase hbase' h
  obtain ⟨k, rfl⟩ := hn.sound.self.canonical
  obtain ⟨k', rfl⟩ := hm.sound.self.canonical
  have hk : k = k' := toDigits_inj (Term.number.inj hindex)
  have htype : array.typeOf = .array type := hn.sound.self.obeys
  have htype' : array.typeOf = .array type' := hm.sound.self.obeys
  rw [htype, Ty.array.injEq] at htype'
  rw [hk, htype']

theorem tells_property {map key : Node} (hmap : Tells R E table map) (hkey : Tells R E table key)
    {map' key' : Node} (hn : Covered R E table (.property map key type))
    (hm : Covered R E table (.property map' key' type'))
    (h : termOf table (.property map key type) = termOf table (.property map' key' type')) :
    Node.property map key type = .property map' key' type' := by
  have hntree : Vocabulary.Tree E (.property map key type) := hn.part.resolve_left false_ne_true
  have hmtree : Vocabulary.Tree E (.property map' key' type') := hm.part.resolve_left false_ne_true
  obtain ⟨rfl, hterm⟩ := base_eq_of_element hmap (hn.child (.head _) hntree.1) (hm.child (.head _) hmtree.1) h
  obtain rfl := hkey key' (hn.child (.tail _ (.head _)) hntree.2) (hm.child (.tail _ (.head _)) hmtree.2) hterm
  obtain ⟨keyType, htype, -⟩ := hn.sound.self.obeys
  obtain ⟨keyType', htype', -⟩ := hm.sound.self.obeys
  rw [htype, Ty.map.injEq] at htype'
  rw [htype'.2]

/-- The type of the base tells the elements of arrays from those of maps. -/
theorem ne_of_member_property {array map key : Node} {index : Option Int}
    (hsame : Covered R E table array → Covered R E table map → termOf table array = termOf table map → array = map)
    (hn : Covered R E table (.member array index type))
    (hm : Covered R E table (.property map key type')) :
    termOf table (.member array index type) ≠ termOf table (.property map key type') := by
  intro h
  have hmtree : Vocabulary.Tree E (.property map key type') := hm.part.resolve_left false_ne_true
  have harray := hn.child (.head _) (hn.part.resolve_left false_ne_true)
  obtain rfl := hsame harray (hm.child (.head _) hmtree.1) (Term.index.inj (Term.group.inj h)).1
  obtain ⟨keyType, htype, -⟩ := hm.sound.self.obeys
  have htype' : array.typeOf = .array type := hn.sound.self.obeys
  rw [htype] at htype'
  cases htype'

/-! ### Calls -/

theorem exists_of_callForm (h : callForm callee ≠ .plain) :
    ∃ f, callee = .fn f ∧ f.id = if callForm callee = .printing then pour.id else species.id := by
  cases callee with
  | fn f =>
    refine ⟨f, rfl, ?_⟩
    rw [callForm] at h ⊢
    by_cases hpour : (f.id == pour.id) = true
    · rw [if_pos hpour, if_pos rfl]
      exact beq_iff_eq.mp hpour
    · by_cases hspecies : (f.id == species.id) = true
      · rw [if_neg hpour, if_pos hspecies, if_neg nofun]
        exact beq_iff_eq.mp hspecies
      · simp [hpour, hspecies] at h
  | _ => exact absurd rfl h

theorem eq_of_callForm {callee' : Node} (hknown : callee.Known R) (hknown' : callee'.Known R)
    (hform : callForm callee = callForm callee') (h : callForm callee ≠ .plain) :
    callee = callee' := by
  obtain ⟨f, rfl, hid⟩ := exists_of_callForm h
  obtain ⟨f', rfl, hid'⟩ := exists_of_callForm (hform ▸ h)
  cases R.unique hknown hknown' (by rw [Entity.id, Entity.id, hid, hid', hform])
  rfl

theorem isLibraryFunction_of_callForm (h : callForm callee = .plain) :
    callee.isLibraryFunction = false := by
  cases callee with
  | fn f =>
    rw [callForm] at h
    by_cases hpour : (f.id == pour.id) = true
    · simp [hpour] at h
    · by_cases hspecies : (f.id == species.id) = true
      · simp [hpour, hspecies] at h
      · simp [Node.isLibraryFunction, hpour, hspecies]
  | _ => rfl

theorem optionalTerms_of_species {args : Option (List Node)}
    (h : (Node.call callee args type).IsSound R) (hform : callForm callee = .kind) (f : Term) :
    optionalTerms table args = [(optionalTerms table args).head?.getD f] := by
  obtain ⟨g, rfl, hid⟩ := exists_of_callForm (by rw [hform]; exact nofun)
  rw [hform, if_neg nofun] at hid
  obtain ⟨-, n, hn⟩ := call_species h (beq_iff_eq.mpr hid)
  rw [optionalTerms_eq_map, hn]
  rfl

theorem tells_call {args : Option (List Node)} (hcallee : Tells R E table callee)
    (hargs : ∀ n ∈ args.getD [], Tells R E table n) {callee' : Node} {args' : Option (List Node)}
    (hn : Covered R E table (.call callee args type))
    (hm : Covered R E table (.call callee' args' type'))
    (h : termOf table (.call callee args type) = termOf table (.call callee' args' type')) :
    Node.call callee args type = .call callee' args' type' := by
  have hntree : Vocabulary.Tree E (.call callee args type) := hn.part.resolve_left false_ne_true
  have hmtree : Vocabulary.Tree E (.call callee' args' type') := hm.part.resolve_left false_ne_true
  have hform : callForm callee = callForm callee' :=
    Form.call.inj (Option.some.inj (hn.nodeForm?_eq hm h))
  have hknown := (hn.sound.children callee (.head _)).self.known
  have hknown' := (hm.sound.children callee' (.head _)).self.known
  rw [termOf, termOf, callTerm_eq, callTerm_eq, ← hform] at h
  obtain ⟨rfl, hterms⟩ : callee = callee' ∧ optionalTerms table args = optionalTerms table args' := by
    cases hcall : callForm callee with
    | printing =>
      simp only [hcall, Term.call.injEq, List.cons.injEq, true_and, and_true] at h
      exact ⟨eq_of_callForm hknown hknown' hform (by simp [hcall]), h⟩
    | kind =>
      simp only [hcall, Term.signed.injEq, true_and] at h
      refine ⟨eq_of_callForm hknown hknown' hform (by simp [hcall]), ?_⟩
      rw [optionalTerms_of_species hn.sound hcall (termOf table callee), h]
      exact (optionalTerms_of_species hm.sound (hform ▸ hcall) _).symm
    | plain =>
      simp only [hcall, Term.call.injEq] at h
      have htree := hntree.1.resolve_left (by simp [isLibraryFunction_of_callForm hcall])
      have htree' := hmtree.1.resolve_left (by simp [isLibraryFunction_of_callForm (hform ▸ hcall)])
      exact ⟨hcallee callee' (hn.child (.head _) htree) (hm.child (.head _) htree') h.1, h.2⟩
  have hntrees := Vocabulary.optional_iff.mp hntree.2
  have hmtrees := Vocabulary.optional_iff.mp hmtree.2
  obtain rfl := tells_optional (fun n hmem => hn.child (.tail _ hmem) (hntrees n hmem))
    (fun n hmem => hm.child (.tail _ hmem) (hmtrees n hmem)) hargs hn.sound.self.canonical hm.sound.self.canonical
    hterms
  obtain ⟨params, htype, -⟩ := hn.sound.self.obeys
  obtain ⟨params', htype', -⟩ := hm.sound.self.obeys
  rw [htype, Ty.func.injEq] at htype'
  rw [htype'.2]

/-! ### All expressions -/

/-- Expressions over one table that are read alike are the same. The induction is on the parts of one of them;
its form leaves only a few for the other. -/
theorem tells_expression (n : Node) : Tells R E table n := by
  induction n with
  | h n ih =>
  intro m hn hm h
  have hform := hn.nodeForm?_eq hm h
  cases n with
  | var v =>
    cases m with
    | var w => exact eq_of_entities (.var v) (.var w) hn hm h
    | fn f => exact eq_of_entities (.var v) (.fn f) hn hm h
    | _ => cases hform
  | fn f =>
    cases m with
    | var v => exact eq_of_entities (.fn f) (.var v) hn hm h
    | fn g => exact eq_of_entities (.fn f) (.fn g) hn hm h
    | _ => cases hform
  | boolLit _ value =>
    cases m with
    | boolLit _ value' =>
      have hvalue : value = value' := by
        cases value <;> cases value' <;> first | rfl | cases h
      rw [hn.sound.self.canonical, hm.sound.self.canonical, hvalue]
    | _ => cases hform
  | intLit k =>
    cases m with
    | intLit k' => rw [eq_of_ints h]
    | floatLit x => exact absurd h (ne_of_int_float hm.sound.self.canonical)
    | _ => cases hform
  | floatLit x =>
    cases m with
    | intLit k => exact absurd h.symm (ne_of_int_float hn.sound.self.canonical)
    | floatLit y => rw [eq_of_floats hn.sound.self.canonical hm.sound.self.canonical h]
    | _ => cases hform
  | stringLit a =>
    cases m with
    | stringLit b => rw [eq_of_strings h]
    | _ => cases hform
  | binary left _ right =>
    cases m with
    | binary => exact tells_binary (ih left (.head _)) (ih right (.tail _ (.head _))) hn hm h
    | _ => cases hform
  | unary _ operand =>
    cases m with
    | unary => exact tells_unary (ih operand (.head _)) hn hm h
    | _ => cases hform
  | call callee =>
    cases m with
    | call => exact tells_call (ih callee (.head _)) (fun n hmem => ih n (.tail _ hmem)) hn hm h
    | _ => cases hform
  | arrayLit =>
    cases m with
    | arrayLit => exact tells_array ih hn hm h
    | _ => cases hform
  | mapLit =>
    cases m with
    | mapLit => exact tells_map ih hn hm h
    | _ => cases hform
  | member array =>
    cases m with
    | member => exact tells_member (ih array (.head _)) hn hm h
    | property map => exact absurd h (ne_of_member_property (ih array (.head _) map) hn hm)
    | _ => cases hform
  | property map key =>
    cases m with
    | member array =>
      have hsame := fun harray hmap hterm => (ih map (.head _) array hmap harray (Eq.symm hterm)).symm
      exact absurd h.symm (ne_of_member_property hsame hm hn)
    | property => exact tells_property (ih map (.head _)) (ih key (.tail _ (.head _))) hn hm h
    | _ => cases hform
  | _ => cases hn.isSome_nodeForm?

/-! ### Texts -/

theorem wholeText_libraryFunction {f : Function} (h : R.Has (.fn f))
    (hlibrary : (Node.fn f).isLibraryFunction = true) :
    WholeText (expressionText table (.fn f)) (termOf table (.fn f)) := by
  have hpour : R.Has (.fn pour) := R.library _ (by simp [entities, Library.functions])
  have hspecies : R.Has (.fn species) := R.library _ (by simp [entities, Library.functions])
  simp only [Node.isLibraryFunction, Bool.or_eq_true, beq_iff_eq] at hlibrary
  suffices hword : WordText (expressionText table (.fn f)) (termOf table (.fn f)) from hword.tight.loose.whole
  rcases hlibrary with hid | hid
  · cases R.unique h hpour hid
    exact wordText_numbered (by rw [StartsWithLetter]; decide) (List.all_eq_true.mp (by decide))
  · cases R.unique h hspecies hid
    exact wordText_numbered (by rw [StartsWithLetter]; decide) (List.all_eq_true.mp (by decide))

theorem Legible.wholeText (h : Legible R E n) (table : List Int) :
    WholeText (expressionText table n) (termOf table n) := by
  rcases h.part with hlibrary | htree
  · cases n with
    | fn f => exact wholeText_libraryFunction h.sound.self.known hlibrary
    | _ => cases hlibrary
  · obtain ⟨Γ, hupdate | hexpression⟩ := h.simple
    · exact wholeText_update h.sound hupdate htree
    · exact (readsAs_expression h.sound hexpression htree).loose.whole

theorem Legible.gives (h : Legible R E n) :
    Gives table (expression n) (expressionText table n) (writtenIds n) := by
  rcases h.part with hlibrary | htree
  · cases n with
    | fn f =>
      rw [expression]
      exact gives_targetName f.id f.name
    | _ => cases hlibrary
  · rw [writtenIds_of_tree htree]
    obtain ⟨Γ, hupdate | hexpression⟩ := h.simple
    · exact gives_update hupdate htree
    · exact gives_expression hexpression htree

/-- The writer writes the text, and meets no entity that is not in the table. -/
theorem Covered.expression_eq (h : Covered R E table n) {s : EmitState} (hs : s.met = table) :
    ∃ s', expression n s = .ok (expressionText table n, s') ∧ s'.met = table := by
  have hmet : meetAll s.met (writtenIds n) = table := by
    rw [hs]
    exact meetAll_of_subset h.covered
  obtain ⟨prints, hrun⟩ := h.toLegible.gives s (by rw [hmet])
  exact ⟨_, hrun, hmet⟩

theorem eq_of_expressionText (hn : Covered R E table n) (hm : Covered R E table m)
    (h : expressionText table n = expressionText table m) : n = m := by
  apply tells_expression n m hn hm
  have hread := (hn.wholeText table).ofText?_eq
  rw [h, (hm.wholeText table).ofText?_eq, Option.some.injEq] at hread
  exact hread.symm

end JavaScript

end LemonScript
