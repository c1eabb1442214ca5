import LemonScript.Proofs.Compiler.Decoration
import LemonScript.Proofs.Typing.Agreement
/-!
# Variables that are not used

A declaration in front of a program adds a variable to the scope, and with the declared type perhaps some
composite types. The program does not see either, as long as it does not contain the name of the variable.
Only the numbers of its own entities change, since the variable takes the first one.
-/

namespace LemonScript

/-- The types that a declaration of a variable may name. -/
def Ty.Declarable : Ty → Prop
  | .named name => ∃ k ∈ Grammar.primitiveTypes, name = k.spelling
  | .array member => member.Declarable
  | .map key value => key.Declarable ∧ value.Declarable
  | _ => False

theorem injective_shift : Function.Injective fun id : Int => if Library.isLibrary id then id else id + 1 := by
  intro a b h
  simp only [Library.isLibrary, decide_eq_true_eq] at h
  split at h <;> split at h <;> omega

/-- One more for the numbers of a program's own entities. -/
def Renumbering.shift : Renumbering where
  toFun id := if Library.isLibrary id then id else id + 1
  injective := injective_shift
  functions := by decide
  constants := by decide

namespace Analysis

variable {r : Renumbering} {x : String} {names : List (String × Meaning)} {t : Ty} {i : Int}

theorem lookup_initial_renumber (name : String) :
    (Scope.initial.names.lookup name).map (Meaning.renumber r) = Scope.initial.names.lookup name := by
  cases hfound : Scope.initial.names.lookup name with
  | none => rfl
  | some m =>
    have hmem := Shows.mem_of_lookup hfound
    simp only [Scope.initial, List.mem_append, List.mem_map, Prod.mk.injEq] at hmem
    rw [Option.map_some, Option.some.injEq]
    rcases hmem with (⟨_, _, -, rfl⟩ | ⟨f, hf, -, rfl⟩) | ⟨v, hv, -, rfl⟩
    · rfl
    · rw [Meaning.renumber, Function.renumber, r.functions f hf]
    · rw [Meaning.renumber, Variable.renumber, r.constants v hv]

/-- The names are those of the library, and composite types. -/
structure Familiar (names : List (String × Meaning)) : Prop where
  kept : WellKept names
  words : ∀ name, StartsWithLetter name → names.lookup name = Scope.initial.names.lookup name

theorem Familiar.register (h : Familiar names) (ht : t.isResolved) (hparts : ∀ b, t ≠ .base b) :
    ∃ names', register t ⟨names, i⟩ = .ok (t, ⟨names', i⟩) ∧ Familiar names' := by
  obtain ⟨names', hrun, hnames'⟩ := register_eq (s := ⟨names, i⟩) h.kept ht hparts
  refine ⟨names', hrun, hnames'.wellKept h.kept ht hparts, fun name hname => ?_⟩
  have hother : name ≠ t.text := fun heq => not_startsWithLetter_text ht hparts (heq ▸ hname)
  rw [hnames'.lookup_of_ne hother, h.words name hname]

theorem lookup_primitive {k : Keyword} (hk : k ∈ Grammar.primitiveTypes) :
    ∃ t, Scope.initial.names.lookup k.spelling = some (.type t) ∧ t.erase = .named k.spelling ∧ t.isResolved := by
  simp only [Grammar.primitiveTypes, List.mem_cons, List.not_mem_nil, or_false] at hk
  rcases hk with rfl | rfl | rfl | rfl
  · exact ⟨.string, rfl, rfl, rfl⟩
  · exact ⟨.int, rfl, rfl, rfl⟩
  · exact ⟨.boolean, rfl, rfl, rfl⟩
  · exact ⟨.float, rfl, rfl, rfl⟩

/-- A type that can be declared is understood in front of a program. -/
theorem Familiar.resolve : ∀ {t : Ty} {names : List (String × Meaning)}, t.Declarable → Familiar names →
    ∃ t' names', resolve t ⟨names, i⟩ = .ok (t', ⟨names', i⟩) ∧ t'.erase = t ∧ t'.isResolved ∧ Familiar names'
  | .named name, names, ht, h => by
    obtain ⟨k, hk, rfl⟩ := ht
    obtain ⟨t, hfound, hspelling, hresolved⟩ := lookup_primitive hk
    rw [← h.words _ (Grammar.startsWithLetter_spelling k)] at hfound
    refine ⟨t, names, ?_, hspelling, hresolved, h⟩
    simp [Analysis.resolve, lookUp, Scope.find?, hfound, get, getThe, MonadStateOf.get, StateT.get, bind,
      StateT.bind, Except.bind, pure, StateT.pure, Except.pure]
  | .array member, names, ht, h => by
    obtain ⟨member', names₁, hmember, herase, hresolved, h₁⟩ := Familiar.resolve (t := member) ht h
    obtain ⟨names₂, hrun, h₂⟩ := h₁.register (i := i) (t := .array member') hresolved (by simp)
    refine ⟨.array member', names₂, ?_, by rw [Ty.erase, herase], hresolved, h₂⟩
    simp [Analysis.resolve, hmember, hrun, bind, StateT.bind, Except.bind]
  | .map key value, names, ht, h => by
    obtain ⟨key', names₁, hkey, hkeyErase, hkeyResolved, h₁⟩ := Familiar.resolve ht.1 h
    obtain ⟨value', names₂, hvalue, hvalueErase, hvalueResolved, h₂⟩ := Familiar.resolve ht.2 h₁
    have hresolved : (Ty.map key' value').isResolved := by simp [Ty.isResolved, hkeyResolved, hvalueResolved]
    obtain ⟨names₃, hrun, h₃⟩ := h₂.register (i := i) hresolved (by simp)
    refine ⟨.map key' value', names₃, ?_, by rw [Ty.erase, hkeyErase, hvalueErase], hresolved, h₃⟩
    simp [Analysis.resolve, hkey, hvalue, hrun, bind, StateT.bind, Except.bind]

/-- The declaration takes the first number, and what the program sees behind it is what it sees without it. -/
theorem node_declaration (here : Surroundings) (ht : t.Declarable) (hletter : StartsWithLetter x)
    (hlibrary : x ∉ Scope.initial.names.map Prod.fst) :
    ∃ t' u, t'.erase = t ∧ t'.isResolved ∧ ScopesAgree .shift {x} .initial u ∧
      node here (.varDecl t x .missing false false none) .initial =
        .ok (.varDecl t' x .missing false false (some ⟨Library.firstUserId, x, false, t'⟩), u) := by
  obtain ⟨t', names, hrun, herase, hresolved, hnames⟩ :=
    Familiar.resolve (i := Library.firstUserId) ht ⟨Shows.initial.kept, fun _ _ => rfl⟩
  have hnew : names.lookup x = none := by
    rw [hnames.words x hletter, List.lookup_eq_none_iff]
    intro entry hentry
    have hne : x ≠ entry.1 := fun heq => hlibrary (heq ▸ List.mem_map_of_mem hentry)
    simpa using hne
  let v : Variable := ⟨Library.firstUserId, x, false, t'⟩
  refine ⟨t', ⟨(x, .var v) :: names, Library.firstUserId + 1⟩, herase, hresolved, ⟨?_, ?_, ?_, ?_⟩, ?_⟩
  · intro name hletter hne
    rw [lookup_cons_of_ne hne, hnames.words name hletter, lookup_initial_renumber]
  · exact Shows.initial.kept
  · exact List.forall_mem_cons.mpr ⟨⟨rfl, hletter⟩, hnames.kept⟩
  · intro k
    have hown : Library.isLibrary (Library.firstUserId + k) = false := by simp [Library.isLibrary]
    change Library.firstUserId + 1 + k = if Library.isLibrary (Library.firstUserId + k) then _ else Library.firstUserId + k + 1
    rw [hown, if_neg (by simp)]
    omega
  · have hstart : Analysis.resolve t .initial = .ok (t', ⟨names, Library.firstUserId⟩) := hrun
    simp [node, Node.isMissing, newVariable, freshId, declare, require, Scope.find?, hstart, hnew, get, getThe,
      MonadStateOf.get, StateT.get, set, StateT.set, bind, StateT.bind, Except.bind, pure, StateT.pure,
      Except.pure, v]

theorem block_cons {here : Surroundings} {n n' : Node} {s u : Scope} (h : node here n s = .ok (n', u)) (ns : Option (List Node)) :
    block here (some (n :: ns.getD [])) s =
      (block here ns u).map fun result => (some (n' :: result.1.getD []), result.2) := by
  cases ns with
  | none =>
    simp [block, nodes, h, bind, StateT.bind, Except.bind, pure, StateT.pure, Except.pure, Except.map]
  | some ns =>
    simp only [Option.getD_some, block, nodes, bind, StateT.bind, h, Except.bind]
    cases nodes here ns u <;> rfl

end Analysis

theorem Node.allParts_of_isFreeOf {n : Node} {x : String} (h : n.isFreeOf x) :
    n.AllParts fun m => ∀ name ∈ m.names, name ∉ ({x} : Set String) := by
  induction n with
  | h n ih =>
    obtain ⟨hself, hchildren⟩ := Node.every_iff.mp h
    refine .of_children (fun name hname heq => ?_) fun c hc => ih c hc (hchildren c hc)
    obtain rfl : name = x := heq
    simp [hname] at hself

namespace Program

variable {filename source x : String} {p : Program} {t : Ty}

/-- The program with a declaration in front of its statements. -/
def declaring (t : Ty) (x : String) (p : Program) : Program :=
  ⟨p.imports, some (.varDecl t x .missing false false none :: p.statements.getD [])⟩

/-- An unused variable changes nothing else. A declaration of a name that is new to a program, with any type
that can be declared, makes analysis neither accept a program that it rejects nor reject one that it accepts,
and the error is the same. Behind the decorated declaration the program is analyzed as without it, with one
more for the number of each of its own entities. -/
theorem analyze_declaring (hp : Program.parse filename source = .ok p) (ht : t.Declarable) (hx : IsName x)
    (hlibrary : x ∉ Scope.initial.names.map Prod.fst) (hfree : p.node.isFreeOf x) :
    ∃ t' : Ty, t'.erase = t ∧ t'.isResolved ∧ (p.declaring t x).analyze = p.analyze.map fun q =>
      ⟨q.imports, some (.varDecl t' x .missing false false (some ⟨Library.firstUserId, x, false, t'⟩) ::
        (q.renumber .shift).statements.getD [])⟩ := by
  obtain ⟨t', u, herase, hresolved, hscopes, hrun⟩ :=
    Analysis.node_declaration ⟨false, none⟩ ht hx.letter hlibrary
  have hagrees : ∀ n ∈ p.statements.getD [], Analysis.Agrees .shift {x} n := fun n hn =>
    Analysis.agrees_of_names ((worded_of_parse hp).children n hn) ((Node.allParts_of_isFreeOf hfree).children n hn)
  have hends : Analysis.EndsAgree .shift {x} _ (Analysis.block ⟨false, none⟩ p.statements .initial) _ :=
    Analysis.agree_block hagrees _ _ hscopes
  refine ⟨t', herase, hresolved, ?_⟩
  simp only [analyze, declaring, StateT.run, Analysis.block_cons hrun]
  generalize Analysis.block _ _ _ = ends, Analysis.block _ _ u = ends' at hends
  cases hends with
  | done hab hu =>
    subst hab
    rfl
  | failed e => rfl

theorem analyze_declaring_basket : ∃ p q t', Program.parse "" basket = .ok p ∧ p.analyze = .ok q ∧
    p.node.isFreeOf "zest" ∧
    (p.declaring (.map (.named "pulp") (.array (.array (.named "slice")))) "zest").analyze =
      .ok ⟨q.imports, some (.varDecl t' "zest" .missing false false (some ⟨100, "zest", false, t'⟩) ::
        (q.renumber .shift).statements.getD [])⟩ := by
  obtain ⟨p, q, hp, hq, hfree⟩ := @exists_of_accepted "" basket (fun p _ => p.node.isFreeOf "zest")
    (by decide +kernel)
  have ht : (Ty.map (.named "pulp") (.array (.array (.named "slice")))).Declarable :=
    ⟨⟨.stringType, by decide, rfl⟩, .intType, by decide, rfl⟩
  have hletter : "zest".toList.head?.any isLetter := by decide +kernel
  have hword : "zest".toList.all isIdentifierChar := by decide +kernel
  have hx : IsName "zest" := ⟨hletter, List.all_eq_true.mp hword, by decide⟩
  obtain ⟨t', -, -, hrun⟩ := analyze_declaring hp ht hx (by decide) hfree
  rw [hq] at hrun
  exact ⟨p, q, t', hp, hq, hfree, hrun⟩

end Program

end LemonScript
