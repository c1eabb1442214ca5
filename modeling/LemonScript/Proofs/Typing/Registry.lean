import LemonScript.Proofs.TypeInfo.RoundTrip
import LemonScript.Proofs.Typing.Agreement
/-!
# Types that are found by their text

A composite type is kept in the scope under its text, and the functions of a program are described by
the texts of their types. Since a text belongs to one type only, what is found by a text is the type
that was asked for, whatever was done to the scope before.
-/

namespace LemonScript

namespace TypeInfo

variable {p q : Program}

/-! ### What a description says -/

theorem isResolved_exports (hp : p.Surface) (hq : p.analyze = .ok q) :
    ∀ e ∈ exports q, e.signature.ty.isResolved := by
  intro e he
  obtain ⟨n, hn, hexported⟩ := List.mem_filterMap.1 he
  have hdecorated := (Program.decorates_of_analyze hp hq).decorated
  have hroot := (Node.every_iff.mp (Node.everyIn_iff.mp hdecorated n hn)).1
  unfold exported? at hexported
  split at hexported
  · next f =>
    obtain ⟨signature, hsignature, rfl⟩ := Option.map_eq_some_iff.1 hexported
    simp only [Node.isDecorated, Option.any_some, Function.ty, hsignature, Bool.and_eq_true] at hroot
    exact hroot.2.2
  · cases hexported

theorem mem_functions_iff (hp : p.Surface) (hq : p.analyze = .ok q) {functions : List (String × String)}
    {name : String} {t : Ty} (package : String) (hfunctions : (collect package q).functions = some functions)
    (ht : t.isResolved) :
    (name, t.text) ∈ functions ↔ ∃ e ∈ exports q, e.name = name ∧ e.signature.ty = t := by
  obtain ⟨hentries, hnodup⟩ := entries_of_analyze hp hq
  obtain rfl := Option.some.inj hfunctions
  obtain ⟨-, hperm⟩ := @foldl_put (exports q) [] .nil (by rwa [List.append_nil, hentries])
  rw [hperm.mem_iff, List.append_nil, List.mem_map]
  refine exists_congr fun e => and_congr_right fun he => ?_
  rw [Exported.entry, Prod.mk.injEq]
  refine and_congr_right fun _ => ⟨fun htext => ?_, congrArg Ty.text⟩
  exact Ty.eq_of_text_eq (isResolved_exports hp hq e he) ht htext

/-- The text of a type tells which type it is. Whatever is built from the types without parts, arrays,
maps and functions, two types with the same text are the same. So a composite type that is registered under
its text is handed out to whoever asks for it, and nothing else changes, in every scope that is well kept, as
the first one is and as every analysis of a node leaves it; no analysis finds an entity under the text of a
type. The types that a program was given when it was analyzed are the ones that it spells, and each entry of
its description is that of the function with this type. -/
theorem text_identifies {filename source : String} (hp : Program.parse filename source = .ok p)
    (hq : p.analyze = .ok q) (package : String) :
    (∀ a b : Ty, a.isResolved → b.isResolved → (a.text = b.text ↔ a = b)) ∧
    (∀ s, WellKept s.names → ∀ t : Ty, t.isResolved → (∀ b, t ≠ .base b) →
      ∃ s', Analysis.register t s = .ok (t, s') ∧ WellKept s'.names ∧ s'.nextId = s.nextId ∧
        s'.find? t.text = some (.type t) ∧ ∀ name ≠ t.text, s'.find? name = s.find? name) ∧
    WellKept Scope.initial.names ∧
    (∀ here n s, n.AllParts Node.Worded → WellKept s.names →
      (∀ n' s', Analysis.node here n s = .ok (n', s') → WellKept s'.names) ∧
        ∀ name, Analysis.node here n s ≠ .error (.fault (.notAType name))) ∧
    (p.node.AllParts Node.Worded ∧ q.erase = p) ∧
    ∃ functions, (collect package q).functions = some functions ∧
      ∀ (name : String) (t : Ty), t.isResolved →
        ((name, t.text) ∈ functions ↔ ∃ e ∈ exports q, e.name = name ∧ e.signature.ty = t) := by
  have hsurface := Program.surface_of_parse hp
  refine ⟨fun a b ha hb => ⟨Ty.eq_of_text_eq ha hb, congrArg Ty.text⟩, ?_, Shows.initial.kept,
    fun _ _ _ hn hs => Analysis.wellKept_of_node hn hs,
    ⟨Program.worded_of_parse hp, Program.erase_of_analyze hsurface hq⟩,
    _, rfl, fun name t ht => mem_functions_iff hsurface hq package rfl ht⟩
  intro s hs t ht hparts
  obtain ⟨names, hrun, hregistered⟩ := Analysis.register_eq hs ht hparts
  exact ⟨_, hrun, hregistered.wellKept hs ht hparts, rfl, hregistered.lookup_text,
    fun name => hregistered.lookup_of_ne⟩

theorem text_identifies_orchard : ∃ p q, Program.parse "" orchard = .ok p ∧ p.analyze = .ok q ∧
    (∃ n s s', Analysis.node ⟨false, none⟩ (.varDecl (.array (.named "slice")) "x" .missing false false none) .initial =
        .ok (n, s) ∧ Analysis.register (.array .int) s = .ok (.array .int, s') ∧
      s'.find? (Ty.array .int).text = some (.type (.array .int))) ∧
    ∃ e ∈ exports q, e.name = "ö" ∧ e.signature.ty = .func [.int] .void := by
  obtain ⟨p, q, hp, hq, hlisted⟩ := @Program.exists_of_accepted "" orchard (fun _ q =>
    (collect "" q).functions.any (·.contains ("ö", "(int)->void"))) (by decide +kernel)
  obtain ⟨-, hregistry, hinitial, hrun, -, functions, hfunctions, hentry⟩ := text_identifies hp hq ""
  refine ⟨p, q, hp, hq, ?_, ?_⟩
  · have hletters : StartsWithLetter "slice" ∧ StartsWithLetter "x" := by
      rw [StartsWithLetter, StartsWithLetter]
      decide +kernel
    have hworded : (Node.varDecl (.array (.named "slice")) "x" .missing false false none).AllParts Node.Worded :=
      .of_children hletters (List.forall_mem_singleton.mpr (.of_leaf trivial rfl))
    have hkept := (hrun ⟨false, none⟩ _ _ hworded hinitial).1 _ _ rfl
    obtain ⟨s', hregister, -, -, hfound, -⟩ := hregistry _ hkept (.array .int) rfl (by simp)
    exact ⟨_, _, s', rfl, hregister, hfound⟩
  · rw [hfunctions, Option.any_some, List.contains_iff_mem] at hlisted
    have htext : (Ty.func [.int] .void).text = "(int)->void" := by decide
    exact (hentry "ö" (.func [.int] .void) rfl).1 (htext ▸ hlisted)

end TypeInfo

end LemonScript
