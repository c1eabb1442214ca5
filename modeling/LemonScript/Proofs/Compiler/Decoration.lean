import LemonScript.Proofs.Compiler.Safety
/-!
# What analysis adds to a program

A program that is read from a source and accepted by analysis comes out as it was, with decoration.
Without it the program is the one that was read. The entities are those of the declarations that are
visible where they are used, and they are numbered in the order of their declarations.
-/

namespace LemonScript

namespace Program

variable {filename source : String} {p q : Program}

theorem numbered_of_analyze (hp : p.Surface) (h : p.analyze = .ok q) :
    ∃ last, Consecutive Library.firstUserId (Node.declaredIn q.statements) last :=
  (analyzed_of_analyze hp h).numbered

theorem exists_of_accepted {check : Program → Program → Bool}
    (h : ((Program.parse filename source).toOption.any fun p =>
      p.analyze.toOption.any fun q => check p q)) :
    ∃ p q, Program.parse filename source = .ok p ∧ p.analyze = .ok q ∧ check p q := by
  cases hp : Program.parse filename source with
  | error e => simp [hp, Except.toOption] at h
  | ok p =>
    cases hq : p.analyze with
    | error e => simp [hp, hq, Except.toOption] at h
    | ok q => exact ⟨p, q, rfl, hq, by simpa [hp, hq, Except.toOption] using h⟩

/-- Analysis only decorates: erasing what it adds gives the program that was read, and what it adds is
complete. -/
theorem analyze_erase (hp : Program.parse filename source = .ok p) (hq : p.analyze = .ok q) :
    q.erase = p ∧ q.isDecorated = true :=
  ⟨erase_of_analyze (surface_of_parse hp) hq, (decorates_of_analyze (surface_of_parse hp) hq).decorated⟩

/-- A composite type that is met twice, and a case and a default clause without statements. -/
def basket : String :=
  "slice[] a = [] When life gives you lemons try slice f(slice[] b) BEGIN JUICING" ++
    " you get lemonade and f(b) END JUICING Pick (a) BEGIN JUICING lemonCase a citrusLimon END JUICING"

theorem analyze_erase_basket : ∃ p q, Program.parse "" basket = .ok p ∧ p.analyze = .ok q ∧
    q.erase = p ∧ q.isDecorated = true := by
  obtain ⟨p, q, hp, hq, -⟩ := @exists_of_accepted "" basket (fun _ _ => true) (by decide +kernel)
  exact ⟨p, q, hp, hq, analyze_erase hp hq⟩

/-- Analysis resolves names lexically. Every use of a name has become the entity of the only visible
declaration of that name, no name is declared where it is visible, and the entities of the declarations
are numbered in their order. -/
theorem analyze_lexical (hp : Program.parse filename source = .ok p) (hq : p.analyze = .ok q) :
    q.erase = p ∧ Lexical.Block Library.entities q.statements ∧
      (∃ count, Node.declaredIn q.statements =
        (List.range count).map fun k : Nat => Library.firstUserId + k) ∧
      (Node.declaredIn q.statements).Nodup ∧
      ∀ id ∈ Node.declaredIn q.statements, ∀ e ∈ Library.entities, e.id ≠ id := by
  have hsurface := surface_of_parse hp
  obtain ⟨last, hnumbered⟩ := numbered_of_analyze hsurface hq
  refine ⟨erase_of_analyze hsurface hq, (decorates_of_analyze hsurface hq).lexical,
    ⟨_, hnumbered.eq_map_range⟩, hnumbered.nodup, fun id hid e he => ?_⟩
  have hlow : ∀ e ∈ Library.entities, e.id < Library.firstUserId := by decide
  have hhigh := hnumbered.le_of_mem hid
  have hlow := hlow e he
  omega

def reuse : String :=
  "When life gives you lemons try slice f(slice k) BEGIN JUICING you get lemonade and f(k)" ++
    " END JUICING slice k = f(1)"

theorem analyze_lexical_reuse : ∃ p q, Program.parse "" reuse = .ok p ∧ p.analyze = .ok q ∧
    q.erase = p ∧ Lexical.Block Library.entities q.statements ∧
      (∃ count, Node.declaredIn q.statements =
        (List.range count).map fun k : Nat => Library.firstUserId + k) ∧
      (Node.declaredIn q.statements).Nodup ∧
      ∀ id ∈ Node.declaredIn q.statements, ∀ e ∈ Library.entities, e.id ≠ id := by
  obtain ⟨p, q, hp, hq, -⟩ := @exists_of_accepted "" reuse (fun _ _ => true) (by decide +kernel)
  exact ⟨p, q, hp, hq, analyze_lexical hp hq⟩

end Program

/-! ### Names of enclosed scopes

A name may be declared behind a block that declares it as well. Neither declaration is visible to the
other one, though the scope of the first lies in that of the second. -/

namespace Node

def namesOf : List Node → List String
  | [] => []
  | varDecl _ name _ _ _ _ :: ns => name :: namesOf ns
  | funDecl name _ _ _ _ _ :: ns => name :: namesOf ns
  | _ :: ns => namesOf ns

mutual

/-- Whether no name is declared twice in the scopes of a statement and those around it. -/
def apart (outer : List String) : Node → Bool
  | funDecl _ _ _ params body _ => apartIn ((params.getD []).map (·.name) ++ outer) body
  | ifElse cases otherwise => apartArms outer cases && apartIn outer otherwise
  | whileLoop _ body => apartIn outer body
  | forLoop name _ _ _ body _ => apartIn (name :: outer) body
  | switch _ cases default => apartArms outer cases && apartIn outer default
  | _ => true

def apartAll (outer : List String) : List Node → Bool
  | [] => true
  | n :: ns => apart outer n && apartAll outer ns

def apartIn (outer : List String) : Option (List Node) → Bool
  | none => decide outer.Nodup
  | some ns => decide (namesOf ns ++ outer).Nodup && apartAll (namesOf ns ++ outer) ns

def apartArms (outer : List String) : List (Arm Node) → Bool
  | [] => true
  | ⟨_, body⟩ :: rest => apartIn outer body && apartArms outer rest

end

end Node

namespace Program

/-- A block that declares a name, and a declaration of the same name behind it. -/
def afterwards : String :=
  "Squeeze the lemon if (sweet) BEGIN JUICING slice x = 1 END JUICING slice x = 2"

def libraryNames : List String := Library.types.map Prod.fst ++ Library.entities.map Entity.name

theorem analyze_accepts_afterwards : ∃ p q, Program.parse "" afterwards = .ok p ∧ p.analyze = .ok q ∧
    Node.apartIn libraryNames q.statements = false := by
  obtain ⟨p, q, hp, hq, hrepeated⟩ := @exists_of_accepted "" afterwards
    (fun _ q => !Node.apartIn libraryNames q.statements) (by decide +kernel)
  exact ⟨p, q, hp, hq, by simpa using hrepeated⟩

end Program

end LemonScript
