import LemonScript.Proofs.Grammar.Parsed
import LemonScript.Proofs.Typing.Roster
import LemonScript.Proofs.Typing.Typed
/-!
# What is known of every node

The typing rules of expressions speak of the types of the nodes directly in them. Together with the
entities that a node may use and with the form that the grammar gives it, they leave nothing of an
expression open that its text does not show. All nodes of an analyzed program are sound in this way.
-/

namespace LemonScript

namespace Node

/-- The typing rule of an expression. That the keys of a map literal differ is not a matter of types, and
no part of it. -/
def Obeys : Node → Prop
  | .call callee args type =>
    ∃ params, callee.typeOf = .func params type ∧
      List.Forall₂ (fun arg t => arg.typeOf.assignable t = true) (args.getD []) params
  | .binary left op right type => op.Types left.typeOf right.typeOf type
  | .unary op operand _ type => op.Types operand.typeOf type
  | .arrayLit elements type => Alike (elements.getD []) ∧ type = arrayType (elements.getD [])
  | .mapLit entries type =>
    Alike (entries.map (·.key)) ∧ Alike (entries.map (·.value)) ∧ type = mapType entries
  | .member array _ type => array.typeOf = .array type
  | .property map key type =>
    ∃ keyType, map.typeOf = .map keyType type ∧ key.typeOf.equivalent keyType = true
  | .boolLit _ _ type => type = .boolean
  | _ => True

/-- What is known of a node of a program over a roster. -/
structure Sound (R : Roster) (n : Node) : Prop where
  obeys : n.Obeys
  known : n.Known R
  canonical : n.Canonical

abbrev IsSound (R : Roster) (n : Node) : Prop := n.AllParts (Sound R)

theorem Typed.obeys {n : Node} (h : n.Typed) : n.Obeys := by
  cases n with
  | mapLit => exact ⟨h.1, h.2.1, h.2.2.2⟩
  | call | binary | unary | arrayLit | member | property | boolLit => exact h
  | _ => trivial

/-! ### Erasure -/

theorem children_eraseArms (arms : List (Arm Node)) :
    (eraseArms arms).flatMap Arm.children = (arms.flatMap Arm.children).map erase := by
  induction arms with
  | nil => rfl
  | cons _ _ ih =>
    simp only [eraseArms, List.flatMap_cons, List.map_append, ih, Arm.children, List.map_cons, getD_eraseIn]

theorem children_eraseEntries (entries : List (Entry Node)) :
    (eraseEntries entries).flatMap Entry.children = (entries.flatMap Entry.children).map erase := by
  induction entries with
  | nil => rfl
  | cons _ _ ih =>
    simp only [eraseEntries, List.flatMap_cons, List.map_append, ih, Entry.children, List.map_cons, List.map_nil]

theorem children_erase (n : Node) : n.erase.children = n.children.map erase := by
  cases n <;> simp only [erase, children, Arm.children, Entry.children, getD_eraseIn, children_eraseArms,
    children_eraseEntries, List.map_append, List.map_cons, List.map_nil]

theorem PartOf.erase {m n : Node} (h : PartOf m n) : PartOf m.erase n.erase := by
  induction h with
  | refl => exact .refl _
  | child hc _ ih => exact .child (children_erase _ ▸ List.mem_map_of_mem hc) ih

theorem canonical_of_erase {n : Node} (h : n.erase.Canonical) : n.Canonical := by
  cases n with
  | call _ args => cases args <;> exact h
  | arrayLit elements => cases elements <;> exact h
  | floatLit | boolLit | member | unary => exact h
  | _ => trivial

end Node

theorem Program.isSound_of_analyze {p q : Program} (hp : p.node.AllParts Node.Canonical)
    (hq : p.analyze = .ok q) (herase : q.erase = p) (h : q.WellFormed)
    (hlexical : Lexical.Block Library.entities q.statements) : q.node.IsSound (q.roster h) := by
  intro m hm
  refine ⟨(wellTyped_of_analyze hq m hm).obeys, known_of_lexical h hlexical hm, Node.canonical_of_erase ?_⟩
  have herase : q.node.erase = p.node := by rw [← herase]; rfl
  exact hp _ (herase ▸ hm.erase)

end LemonScript
