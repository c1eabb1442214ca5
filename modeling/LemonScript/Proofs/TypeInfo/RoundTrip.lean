import LemonScript.Proofs.Assembly.Reading
import LemonScript.Proofs.Compiler.Decoration
import LemonScript.Proofs.TypeInfo.Json
import LemonScript.TypeInfo.Assembly
/-!
# Type information survives its assembly module

The description of an analyzed program has one entry for each function that the program declares at its
top level, with the types that the declaration gives. The assembly module of the program can be read,
since names of functions and parameters start with a letter and no two functions at the top level share
a name. Reading it gives the description back.
-/

namespace LemonScript.TypeInfo

open Assembly

/-! ### Entries -/

variable {name : String} {functions : List (String × String)}
variable {f : String × String} {ns : List Node}

theorem mem_put {type : String} (h : f ∈ put name type functions) :
    f = (name, type) ∨ f ∈ functions := by
  induction functions with
  | nil => exact .inl (by simpa [put] using h)
  | cons g gs ih =>
    rw [put] at h
    split_ifs at h
    · simpa using h
    · rcases List.mem_cons.1 h with h | h
      · exact .inl h
      · exact .inr (List.mem_cons_of_mem _ h)
    · rcases List.mem_cons.1 h with rfl | h
      · exact .inr List.mem_cons_self
      · exact (ih h).imp_right (List.mem_cons_of_mem _)

theorem ascending_put (name type : String) (h : Ascending functions) :
    Ascending (put name type functions) := by
  induction functions with
  | nil => exact List.pairwise_singleton ..
  | cons g gs ih =>
    obtain ⟨hfirst, hrest⟩ := List.pairwise_cons.1 h
    rw [put]
    split_ifs with hlt heq
    · refine List.pairwise_cons.2 ⟨List.forall_mem_cons.2 ⟨hlt, fun f hf => ?_⟩, h⟩
      exact hlt.trans (hfirst f hf)
    · obtain rfl : name = g.1 := by simpa using heq
      exact List.pairwise_cons.2 ⟨hfirst, hrest⟩
    · have hne : name ≠ g.1 := by simpa using heq
      have hgt : g.1 < name := lt_of_le_of_ne (not_lt.1 hlt) hne.symm
      refine List.pairwise_cons.2 ⟨fun f hf => ?_, ih hrest⟩
      rcases mem_put hf with rfl | hf
      · exact hgt
      · exact hfirst f hf

theorem put_perm (type : String) (h : name ∉ functions.map Prod.fst) :
    (put name type functions).Perm ((name, type) :: functions) := by
  induction functions with
  | nil => rfl
  | cons g gs ih =>
    obtain ⟨hne, hrest⟩ : name ≠ g.1 ∧ name ∉ gs.map Prod.fst := by simpa using h
    rw [put]
    split_ifs with hlt heq
    · rfl
    · exact absurd (by simpa using heq) hne
    · exact ((ih hrest).cons g).trans (.swap ..)

def Exported.entry (e : Exported) : String × String := (e.name, e.signature.ty.text)

theorem foldl_put {es : List Exported} {known : List (String × String)} (hknown : Ascending known)
    (h : ((es.map Exported.entry ++ known).map Prod.fst).Nodup) :
    Ascending (es.foldl (fun fs e => put e.name e.signature.ty.text fs) known) ∧
      (es.foldl (fun fs e => put e.name e.signature.ty.text fs) known).Perm
        (es.map Exported.entry ++ known) := by
  induction es generalizing known with
  | nil => exact ⟨hknown, .refl _⟩
  | cons e es ih =>
    have hnew : e.name ∉ known.map Prod.fst := fun hmem =>
      (List.nodup_cons.1 h).1 (List.map_append ▸ List.mem_append_right _ hmem)
    have hmove : (es.map Exported.entry ++ put e.name e.signature.ty.text known).Perm
        ((e :: es).map Exported.entry ++ known) :=
      ((put_perm _ hnew).append_left _).trans List.perm_middle
    obtain ⟨hascending, hperm⟩ := ih (ascending_put e.name e.signature.ty.text hknown)
      ((hmove.map Prod.fst).nodup_iff.2 h)
    exact ⟨hascending, hperm.trans hmove⟩

/-! ### Declarations at the top level -/

/-- The name of the function that a statement declares, with its printed type, as the declaration gives
them. -/
def declared? : Node → Option (String × String)
  | .funDecl name _ result params _ _ =>
    some (name, (Ty.func ((params.getD []).map (·.type)) result).text)
  | _ => none

def declaredFunctions (p : Program) : List (String × String) :=
  (p.statements.getD []).filterMap declared?

variable {Γ : List Entity} {n : Node} {p q : Program}

theorem entry_exported? (h : Lexical.Statement Γ n) : (exported? n).map Exported.entry = declared? n := by
  cases n with
  | funDecl =>
    simp only [Lexical.Statement] at h
    obtain ⟨-, f, ps, rfl, rfl, -, hsignature, -⟩ := h
    simp [exported?, declared?, hsignature, Exported.entry, Signature.ty]
  | _ => rfl

theorem map_entry_exported? (h : Lexical.Statements Γ ns) :
    (ns.filterMap exported?).map Exported.entry = ns.filterMap declared? := by
  rw [List.map_filterMap]
  induction ns generalizing Γ with
  | nil => rfl
  | cons n ns ih => rw [List.filterMap_cons, List.filterMap_cons, entry_exported? h.1, ih h.2]

theorem mem_behind (h : name ∈ Γ.map Entity.name) (n : Node) :
    name ∈ (Lexical.behind Γ n).map Entity.name := by
  unfold Lexical.behind
  split
  · exact List.mem_cons_of_mem _ h
  · exact List.mem_cons_of_mem _ h
  · exact h

theorem declared?_visible (h : Lexical.Statement Γ n) (hf : declared? n = some f) :
    f.1 ∉ Γ.map Entity.name ∧ f.1 ∈ (Lexical.behind Γ n).map Entity.name := by
  cases n with
  | funDecl =>
    simp only [Lexical.Statement] at h
    obtain ⟨hfresh, g, ps, rfl, rfl, rfl, -⟩ := h
    obtain rfl := Option.some.inj hf
    exact ⟨hfresh.2, List.mem_cons_self⟩
  | _ => cases hf

theorem nodup_declared? (h : Lexical.Statements Γ ns) :
    ((ns.filterMap declared?).map Prod.fst).Nodup ∧
      ∀ f ∈ ns.filterMap declared?, f.1 ∉ Γ.map Entity.name := by
  induction ns generalizing Γ with
  | nil => simp
  | cons n ns ih =>
    obtain ⟨hnodup, hnew⟩ := ih h.2
    have hnew' : ∀ f ∈ ns.filterMap declared?, f.1 ∉ Γ.map Entity.name :=
      fun f hf hmem => hnew f hf (mem_behind hmem n)
    cases hn : declared? n with
    | none => simpa only [List.filterMap_cons_none hn] using ⟨hnodup, hnew'⟩
    | some f =>
      obtain ⟨hfresh, hvisible⟩ := declared?_visible h.1 hn
      rw [List.filterMap_cons_some hn]
      refine ⟨List.nodup_cons.2 ⟨fun hmem => ?_, hnodup⟩, List.forall_mem_cons.2 ⟨hfresh, hnew'⟩⟩
      obtain ⟨g, hg, hname⟩ := List.mem_map.1 hmem
      exact hnew g hg (hname ▸ hvisible)

theorem statements_of_analyze (hp : p.Surface) (hq : p.analyze = .ok q) :
    Lexical.Statements Library.entities (q.statements.getD []) := by
  have hlexical := (Program.decorates_of_analyze hp hq).lexical
  cases hs : q.statements with
  | none => trivial
  | some ns =>
    rw [hs] at hlexical
    exact hlexical

/-! ### Names -/

theorem ne_of_isName {other : String} (h : IsName name)
    (hother : other.toList.head?.any isLetter = false) : name ≠ other := by
  rintro rfl
  exact Bool.false_ne_true (hother.symm.trans h.letter)

theorem isName_exported? {e : Exported} (hn : Surface.Statement n.erase) (he : exported? n = some e) :
    IsName e.name ∧ ∀ x ∈ e.params, IsName x.name := by
  unfold exported? at he
  split at he
  · next name isStatic result params body f =>
    obtain ⟨s, -, rfl⟩ := Option.map_eq_some_iff.1 he
    simp only [Node.erase, Surface.Statement] at hn
    obtain ⟨-, hname, ⟨ps, hps, hall⟩, -⟩ := hn
    obtain ⟨xs, rfl, rfl⟩ := Option.map_eq_some_iff.1 hps
    exact ⟨hname, fun x hx => (hall x.erase (List.mem_map_of_mem hx)).2.1⟩
  · cases he

theorem isName_exports (hp : p.Surface) (hq : p.analyze = .ok q) :
    ∀ e ∈ exports q, IsName e.name ∧ ∀ x ∈ e.params, IsName x.name := by
  intro e he
  obtain ⟨n, hn, hexported⟩ := List.mem_filterMap.1 he
  have hsurface := (Surface.optional_iff.1 hp.statements).2
  rw [← Program.erase_of_analyze hp hq, Program.erase, Node.getD_eraseIn] at hsurface
  exact isName_exported? (hsurface _ (List.mem_map_of_mem hn)) hexported

theorem map_fst_declaredFunctions_erase (q : Program) :
    (declaredFunctions q.erase).map Prod.fst = (declaredFunctions q).map Prod.fst := by
  have hname : ∀ n : Node, (declared? n.erase).map Prod.fst = (declared? n).map Prod.fst := by
    intro n
    cases n <;> rfl
  rw [declaredFunctions, declaredFunctions, Program.erase, Node.getD_eraseIn, List.filterMap_map,
    List.map_filterMap, List.map_filterMap]
  exact List.filterMap_congr fun n _ => hname n

/-! ### The module -/

/-- The entries of a program are the functions that it declares, each under a name of its own. -/
theorem entries_of_analyze (hp : p.Surface) (hq : p.analyze = .ok q) :
    (exports q).map Exported.entry = declaredFunctions q ∧ ((declaredFunctions q).map Prod.fst).Nodup :=
  have hlexical := statements_of_analyze hp hq
  ⟨map_entry_exported? hlexical, (nodup_declared? hlexical).1⟩

theorem readable_asmModule (package : String) (hp : p.Surface) (hq : p.analyze = .ok q) :
    (asmModule package q).Readable where
  globals := by
    intro g hg
    obtain rfl := List.mem_singleton.1 hg
    exact ⟨by simp [textGlobal, symbol], _, rfl, rfl⟩
  declarations := by
    intro d hd
    obtain ⟨e, he, rfl⟩ := List.mem_map.1 hd
    obtain ⟨hname, hparams⟩ := isName_exports hp hq e he
    refine ⟨ne_of_isName hname rfl, fun x hx => ?_⟩
    obtain ⟨⟨param, type⟩, hmem, rfl⟩ := List.mem_map.1 hx
    exact ne_of_isName (hparams param (List.of_mem_zip hmem).1) rfl
  names := by
    obtain ⟨hentries, hnodup⟩ := entries_of_analyze hp hq
    rw [← hentries, List.map_map] at hnodup
    have hnames : (asmModule package q).names = symbol :: (exports q).map (Prod.fst ∘ Exported.entry) := by
      simp [AsmModule.names, asmModule, textGlobal, declaration, Function.comp_def, Exported.entry]
    rw [hnames]
    refine List.nodup_cons.2 ⟨fun hmem => ?_, hnodup⟩
    obtain ⟨e, he, hsymbol⟩ := List.mem_map.1 hmem
    exact ne_of_isName (isName_exports hp hq e he).1 (by decide) hsymbol

theorem trimmedText_brace (text : String) :
    trimmedText ((text ++ "\x7d").toUTF8.toList ++ [0]) = text ++ "\x7d" := by
  have hbytes : (text ++ "\x7d").toUTF8.toList = text.toUTF8.toList ++ [0x7D] := by
    rw [toList_toUTF8, toList_toUTF8, String.toList_append, List.flatMap_append]
    rfl
  calc trimmedText ((text ++ "\x7d").toUTF8.toList ++ [0])
    _ = decodeUtf8 (text.toUTF8.toList ++ [0x7D]) := by
      rw [trimmedText, hbytes, List.reverse_append, List.reverse_append]
      simp
    _ = text ++ "\x7d" := by rw [← hbytes, decodeUtf8_toUTF8]

theorem readData_asmModule (package file : String) (hp : p.Surface) (hq : p.analyze = .ok q) :
    readData file (asmModule package q).text = .ok (collect package q).toJson := by
  have hfind : (asmModule package q).globals.find? (fun g => g.name == symbol) =
      some (textGlobal symbol (collect package q).toJson) := rfl
  rw [readData, AsmModule.parse?_text (readable_asmModule package hp hq)]
  simp only [hfind]
  exact congrArg Except.ok (trimmedText_brace _)

/-- Type information survives its assembly module. The description that is read back from the module of
an analyzed program is the one that was collected, whatever the package is called. It has one entry for
each function that the program declares at its top level, and no other. The program may be read from a
source or joined from several. -/
theorem ofAssembly_asmModule (hp : p.Surface) (hq : p.analyze = .ok q) (package file : String) :
    ofAssembly file (asmModule package q).text = .ok (collect package q) ∧
      ∃ functions, collect package q = ⟨package, some functions⟩ ∧
        functions.Perm (declaredFunctions q) ∧ (functions.map Prod.fst).Nodup ∧
        (declaredFunctions q).map Prod.fst = (declaredFunctions p).map Prod.fst := by
  obtain ⟨hentries, hnodup⟩ := entries_of_analyze hp hq
  have hempty : Ascending [] := .nil
  obtain ⟨hascending, hperm⟩ := foldl_put hempty (by rwa [List.append_nil, hentries])
  rw [List.append_nil, hentries] at hperm
  refine ⟨?_, _, rfl, hperm, (hperm.map Prod.fst).nodup_iff.2 hnodup, ?_⟩
  · rw [ofAssembly, readData_asmModule package file hp hq]
    have hread := ofJson?_toJson package hascending
    simp only [bind, Except.bind, collect, hread]
  · rw [← map_fst_declaredFunctions_erase, Program.erase_of_analyze hp hq]

/-- A function in a function, names with letters that take several bytes, and a function whose name
comes before that of an earlier one. -/
def orchard : String :=
  "When life gives you lemons try noLemon ö(slice ä) BEGIN JUICING" ++
    " When life gives you lemons try noLemon k() BEGIN JUICING END JUICING END JUICING" ++
    " When life gives you lemons try noLemon a() BEGIN JUICING END JUICING"

theorem ofAssembly_asmModule_orchard : ∃ p q, Program.parse "" orchard = .ok p ∧ p.Surface ∧
    p.analyze = .ok q ∧
    declaredFunctions q = [("ö", "(int)->void"), ("a", "()->void")] ∧
    ofAssembly "a.ll" (asmModule "\"ö\\\n\x00<" q).text = .ok (collect "\"ö\\\n\x00<" q) ∧
      ∃ functions, collect "\"ö\\\n\x00<" q = ⟨"\"ö\\\n\x00<", some functions⟩ ∧
        functions.Perm (declaredFunctions q) ∧ (functions.map Prod.fst).Nodup ∧
        (declaredFunctions q).map Prod.fst = (declaredFunctions p).map Prod.fst := by
  obtain ⟨p, q, hp, hq, hdeclared⟩ := @Program.exists_of_accepted "" orchard (fun _ q =>
    declaredFunctions q == [("ö", "(int)->void"), ("a", "()->void")]) (by decide +kernel)
  have hsurface := Program.surface_of_parse hp
  exact ⟨p, q, hp, hsurface, hq, by simpa using hdeclared,
    ofAssembly_asmModule hsurface hq "\"ö\\\n\x00<" "a.ll"⟩

end LemonScript.TypeInfo
