import Mathlib
import LemonScript.Variants.Kinds
/-!
# The methods of a generated file

A generated file is read back line by line. It declares one method for each variant of each kind, in the
order of the declarations. That no kind lists a variant twice does not make all of these methods different:
two kinds of the same name may list the same variant, and the method of that variant is then declared twice.
-/

namespace LemonScript.Variants

open List (append_assoc forall_mem_cons mem_append mem_map)
open String (toList_append toList_inj)

/-! ### What a file declares -/

def methodStart : List Char := ['f', 'u', 'n', 'c', ' ', '(', 'v', ' ', '*']

/-- The method that a line declares. The receiver ends before the first bracket, the name before the next. -/
def methodOf? (line : List Char) : Option Marker :=
  if methodStart.isPrefixOf line then
    let ahead := line.drop methodStart.length
    let receiver := ahead.takeWhile (· != ')')
    let name := (ahead.drop (receiver.length + 2)).takeWhile (· != '(')
    some ⟨.ofList receiver, .ofList name⟩
  else none

def methods (text : String) : List Marker := (text.toList.splitOn '\n').filterMap methodOf?

/-- The text consists of whole lines, and these declare the methods. -/
def Declares (text : String) (ms : List Marker) : Prop :=
  ∃ lines : List (List Char), text.toList = lines.flatMap (· ++ ['\n']) ∧ (∀ l ∈ lines, '\n' ∉ l) ∧
    lines.filterMap methodOf? = ms

variable {kinds : List Kind} {ts : List Token}
variable {c : Char} {cs : List Char} {ms : List Marker} {package text : String} {r : Reading}
  {k k' : Kind}

theorem splitOn_lines {lines : List (List Char)} (h : ∀ l ∈ lines, '\n' ∉ l) :
    (lines.flatMap (· ++ ['\n'])).splitOn '\n' = lines ++ [[]] := by
  induction lines with
  | nil => rfl
  | cons l lines ih =>
    obtain ⟨hl, hlines⟩ := forall_mem_cons.mp h
    have hother : ∀ c ∈ l, (c == '\n') = false := by
      intro c hc
      simpa using fun heq : c = '\n' => hl (heq ▸ hc)
    rw [List.flatMap_cons, append_assoc, List.singleton_append, List.splitOn_eq_splitOnP,
      List.splitOnP_append_cons_of_forall_mem hother '\n' rfl, ← List.splitOn_eq_splitOnP, ih hlines]
    rfl

namespace Declares

variable {text text' : String} {ms ms' : List Marker}

theorem methods_eq (h : Declares text ms) : methods text = ms := by
  obtain ⟨lines, htext, hlines, rfl⟩ := h
  rw [methods, htext, splitOn_lines hlines, List.filterMap_append]
  exact List.append_nil _

theorem empty : Declares "" [] := ⟨[], rfl, by simp, rfl⟩

theorem append (h : Declares text ms) (h' : Declares text' ms') : Declares (text ++ text') (ms ++ ms') := by
  obtain ⟨lines, htext, hlines, rfl⟩ := h
  obtain ⟨lines', htext', hlines', rfl⟩ := h'
  refine ⟨lines ++ lines', ?_, ?_, List.filterMap_append⟩
  · rw [toList_append, htext, htext', List.flatMap_append]
  · intro l hl
    exact (mem_append.mp hl).elim (hlines l) (hlines' l)

theorem ofLine {line : String} {m? : Option Marker} (hline : '\n' ∉ line.toList)
    (h : methodOf? line.toList = m?) : Declares (line ++ "\n") m?.toList := by
  refine ⟨[line.toList], by simp, by simpa using hline, ?_⟩
  cases m? with
  | none | some => simp [h]

theorem join {f : Marker → String} (h : ∀ m ∈ ms, Declares (f m) [m]) :
    Declares (String.join (ms.map f)) ms := by
  induction ms with
  | nil => exact empty
  | cons m ms ih =>
    obtain ⟨hm, hms⟩ := forall_mem_cons.mp h
    have htext : String.join ((m :: ms).map f) = f m ++ String.join (ms.map f) := by
      rw [← toList_inj]
      simp [String.toList_join]
    rw [htext]
    exact hm.append (ih hms)

end Declares

/-! ### Lines of methods -/

/-- A name without brackets and line breaks, as every name of a declaration is. -/
def IsWord (name : String) : Prop := ∀ c ∈ name.toList, isNameChar c = true

theorem IsWord.not_mem {name : String} (h : IsWord name) (hc : isNameChar c = false) :
    c ∉ name.toList := by
  intro hmem
  rw [h c hmem] at hc
  cases hc

def Marker.IsWord (m : Marker) : Prop := Variants.IsWord m.receiver ∧ Variants.IsWord m.name

section Lines

variable {m : Marker}

theorem toList_head (m : Marker) : m.head.toList =
    methodStart ++ (m.receiver.toList ++ ')' :: ' ' :: (m.name.toList ++ ['(', ')'])) := by
  have hstart : "func (v *".toList = methodStart := rfl
  unfold Marker.head
  rw [toList_append, toList_append, toList_append, toList_append, hstart]
  simp

theorem takeWhile_of_not_mem (h : c ∉ cs) (rest : List Char) :
    (cs ++ c :: rest).takeWhile (· != c) = cs := by
  have hother : ∀ d ∈ cs, (d != c) = true := by
    intro d hd
    simpa using fun heq : d = c => h (heq ▸ hd)
  rw [List.takeWhile_append_of_pos hother]
  simp

theorem methodOf?_head (h : m.IsWord) (rest : List Char) : methodOf? (m.head.toList ++ rest) = some m := by
  have hreceiver := takeWhile_of_not_mem (h.1.not_mem (c := ')') rfl) (' ' :: (m.name.toList ++ '(' :: ')' :: rest))
  have hname := takeWhile_of_not_mem (h.2.not_mem (c := '(') rfl) (')' :: rest)
  have hline : m.head.toList ++ rest =
      methodStart ++ (m.receiver.toList ++ ')' :: ' ' :: (m.name.toList ++ '(' :: ')' :: rest)) := by
    simp [toList_head]
  have hstarts : methodStart.isPrefixOf (m.head.toList ++ rest) = true := by
    rw [List.isPrefixOf_iff_prefix, hline]
    exact List.prefix_append _ _
  rw [methodOf?, if_pos hstarts, hline, List.drop_left]
  dsimp only
  rw [hreceiver, List.drop_append, List.drop_of_length_le (by omega), Nat.add_sub_cancel_left]
  simp only [List.nil_append, List.drop_succ_cons, List.drop_zero]
  rw [hname, String.ofList_toList, String.ofList_toList]

theorem toList_pushn (text : String) (c : Char) (n : Nat) :
    (text.pushn c n).toList = text.toList ++ List.replicate n c := by
  have hrepeat : (Nat.repeat (fun s => String.push s c) n text).toList = text.toList ++ List.replicate n c := by
    induction n with
    | zero => simp [Nat.repeat]
    | succ n ih => rw [Nat.repeat, String.toList_push, ih, append_assoc, ← List.replicate_succ']
  exact hrepeat

theorem newline_not_mem_head (h : m.IsWord) : '\n' ∉ m.head.toList := by
  have hreceiver := h.1.not_mem (c := '\n') rfl
  have hname := h.2.not_mem (c := '\n') rfl
  simp [toList_head, methodStart, hreceiver, hname]

theorem declares_line (h : m.IsWord) (column : Nat) : Declares (m.line column) [m] := by
  have hline : m.line column = m.head.pushn ' ' (column - m.head.length) ++ " \x7b\x7d" ++ "\n" := by
    rw [Marker.line, ← toList_inj]
    simp
  have htoList : (m.head.pushn ' ' (column - m.head.length) ++ " \x7b\x7d").toList =
      m.head.toList ++ (List.replicate (column - m.head.length) ' ' ++ " \x7b\x7d".toList) := by
    rw [toList_append, toList_pushn, append_assoc]
  rw [hline]
  refine @Declares.ofLine _ (some m) ?_ (htoList ▸ methodOf?_head h _)
  rw [htoList]
  have hhead := newline_not_mem_head h
  simp [hhead]

theorem declares_lines (h : m.IsWord) : Declares m.lines [m] := by
  have hlines : m.lines = (m.head ++ " \x7b") ++ "\n" ++ ("\x7d" ++ "\n") := by
    rw [Marker.lines, ← toList_inj]
    simp
  have hhead := newline_not_mem_head h
  have hopening : Declares (m.head ++ " \x7b" ++ "\n") [m] := by
    refine @Declares.ofLine _ (some m) ?_ ?_
    · simp [hhead]
    · rw [toList_append]
      exact methodOf?_head h _
  rw [hlines]
  exact hopening.append (@Declares.ofLine "\x7d" none (by decide) rfl)

end Lines

theorem declares_markerGroups (h : ∀ m ∈ ms, m.IsWord) :
    ∃ ms', ms = (markerGroups ms).1 ++ ms' ∧ Declares (markerGroups ms).2 ms' := by
  induction ms with
  | nil => exact ⟨[], rfl, .empty⟩
  | cons m ms ih =>
    obtain ⟨hm, hms⟩ := forall_mem_cons.mp h
    obtain ⟨ms', hsplit, hrest⟩ := ih hms
    simp only [markerGroups]
    split
    · exact ⟨ms', congrArg (m :: ·) hsplit, hrest⟩
    · refine ⟨m :: ms, rfl, ?_⟩
      have hgroup : ∀ m' ∈ (markerGroups ms).1, m'.IsWord :=
        fun m' hm' => hms m' (hsplit ▸ List.mem_append_left _ hm')
      have hdeclares := ((declares_lines hm).append
        (.join fun m' hm' => declares_line (hgroup m' hm') (bodyColumn (markerGroups ms).1))).append hrest
      rwa [List.singleton_append, List.cons_append, ← hsplit] at hdeclares

theorem declares_markerText (h : ∀ m ∈ ms, m.IsWord) : Declares (markerText ms) ms := by
  obtain ⟨ms', hsplit, hrest⟩ := declares_markerGroups h
  have hgroup : ∀ m ∈ (markerGroups ms).1, m.IsWord :=
    fun m hm => h m (hsplit ▸ List.mem_append_left _ hm)
  have hdeclares := (Declares.join fun m hm =>
    declares_line (hgroup m hm) (bodyColumn (markerGroups ms).1)).append hrest
  rw [← hsplit] at hdeclares
  exact hdeclares

theorem declares_header (h : IsWord package) :
    Declares ("// Code generated by adtgen. DO NOT EDIT.\n\npackage " ++ package ++ "\n") [] := by
  have hpackage : '\n' ∉ package.toList := h.not_mem rfl
  refine ⟨["// Code generated by adtgen. DO NOT EDIT.".toList, [], "package ".toList ++ package.toList], ?_, ?_, ?_⟩
  · simp
  · simp [hpackage]
  · simp [methodOf?, methodStart, List.isPrefixOf]

theorem declares_fileText (hpackage : IsWord package) (h : ∀ m ∈ markers kinds, m.IsWord) :
    Declares (fileText package kinds) (markers kinds) := by
  unfold fileText
  dsimp only
  split
  · next hempty =>
    rw [List.isEmpty_iff.mp hempty, String.append_empty]
    exact declares_header hpackage
  · have hblank : Declares "\n" [] := @Declares.ofLine "" none (by decide) rfl
    exact (declares_header hpackage).append (hblank.append (declares_markerText h))

/-! ### Names of a text -/

def Reading.Sound : Reading → Prop
  | .name seen => ∀ c ∈ seen, isNameChar c = true
  | _ => True

def Token.Sound : Token → Prop
  | .name text => IsWord text
  | .mark _ => True

theorem sound_start (c : Char) : (∀ t ∈ (start c).1, t.Sound) ∧ (start c).2.Sound := by
  unfold start
  split
  · exact ⟨by simp, trivial⟩
  · split
    · next hc => exact ⟨by simp, by simp [Reading.Sound, isNameChar, hc]⟩
    · split
      · exact ⟨by simp, trivial⟩
      · exact ⟨by simp [Token.Sound], trivial⟩

theorem sound_step (hr : r.Sound) (c : Char) :
    (∀ t ∈ (step r c).1, t.Sound) ∧ (step r c).2.Sound := by
  obtain ⟨htokens, hreading⟩ := sound_start c
  cases r with
  | between => exact sound_start c
  | name =>
    rw [step]
    split
    · next hc => exact ⟨by simp, forall_mem_cons.mpr ⟨hc, hr⟩⟩
    · refine ⟨forall_mem_cons.mpr ⟨?_, htokens⟩, hreading⟩
      intro d hd
      exact hr d (by simpa using hd)
  | slash =>
    rw [step]
    split
    · exact ⟨by simp, trivial⟩
    · split
      · exact ⟨by simp, trivial⟩
      · exact ⟨forall_mem_cons.mpr ⟨trivial, htokens⟩, hreading⟩
  | lineComment | longComment => exact ⟨by simp [step], by simp only [step]; split <;> trivial⟩
  | longCommentStar =>
    refine ⟨by simp [step], ?_⟩
    simp only [step]
    split
    · trivial
    · split <;> trivial

theorem sound_tokensFrom (hr : r.Sound) (h : tokensFrom r cs = some ts) : ∀ t ∈ ts, t.Sound := by
  induction cs generalizing r ts with
  | nil =>
    cases r with
    | name =>
      obtain rfl := Option.some.inj h
      simpa [Token.Sound, IsWord, Reading.Sound] using hr
    | slash =>
      obtain rfl := Option.some.inj h
      simp [Token.Sound]
    | between | lineComment =>
      obtain rfl := Option.some.inj h
      simp
    | longComment | longCommentStar => cases h
  | cons c cs ih =>
    obtain ⟨htokens, hreading⟩ := sound_step hr c
    rw [tokensFrom] at h
    obtain ⟨rest, hrest, rfl⟩ := Option.map_eq_some_iff.mp h
    intro t ht
    exact (mem_append.mp ht).elim (htokens t) (ih hreading hrest t)

theorem sound_tokens? (h : tokens? text = some ts) : ∀ t ∈ ts, t.Sound := by
  unfold tokens? at h
  dsimp only at h
  split at h
  · cases h
  · exact sound_tokensFrom (r := .between) trivial h

section Words

variable {ts rest : List Token} {vs : List String}

theorem words_of_moreVariants? (hts : ∀ t ∈ ts, t.Sound) (h : moreVariants? ts = some (vs, rest)) :
    (∀ v ∈ vs, IsWord v) ∧ ∀ t ∈ rest, t.Sound := by
  induction ts using moreVariants?.induct generalizing vs with
  | case1 v ts ih =>
    rw [moreVariants?] at h
    obtain ⟨⟨vs', rest'⟩, hmore, hpair⟩ := Option.map_eq_some_iff.mp h
    obtain ⟨rfl, rfl⟩ := Prod.mk.inj hpair
    simp only [forall_mem_cons] at hts
    obtain ⟨hvs, hrest⟩ := ih hts.2.2 hmore
    exact ⟨forall_mem_cons.mpr ⟨hts.2.1, hvs⟩, hrest⟩
  | case2 ts =>
    rw [moreVariants?] at h
    obtain ⟨rfl, rfl⟩ := Prod.mk.inj (Option.some.inj h)
    exact ⟨by simp, fun t ht => hts t (List.mem_cons_of_mem _ ht)⟩
  | case3 ts hbar hend => rw [moreVariants?.eq_3 ts hbar hend] at h; cases h

theorem words_of_variants? (hts : ∀ t ∈ ts, t.Sound) (h : variants? ts = some (vs, rest)) :
    (∀ v ∈ vs, IsWord v) ∧ ∀ t ∈ rest, t.Sound := by
  unfold variants? at h
  split at h
  all_goals first | cases h | skip
  all_goals
    obtain ⟨⟨vs', rest'⟩, hmore, hpair⟩ := Option.map_eq_some_iff.mp h
    obtain ⟨rfl, rfl⟩ := Prod.mk.inj hpair
    simp only [forall_mem_cons] at hts
  · obtain ⟨hvs, hrest⟩ := words_of_moreVariants? hts.2.2 hmore
    exact ⟨forall_mem_cons.mpr ⟨hts.2.1, hvs⟩, hrest⟩
  · obtain ⟨hvs, hrest⟩ := words_of_moreVariants? hts.2 hmore
    exact ⟨forall_mem_cons.mpr ⟨hts.1, hvs⟩, hrest⟩

end Words

def Kind.IsWord (k : Kind) : Prop := Variants.IsWord k.name ∧ ∀ v ∈ k.variants, Variants.IsWord v

theorem words_of_kinds? {fuel : Nat} (hts : ∀ t ∈ ts, t.Sound) (h : kinds? fuel ts = some kinds) :
    ∀ k ∈ kinds, k.IsWord := by
  induction fuel, ts using kinds?.induct generalizing kinds with
  | case1 fuel =>
    rw [kinds?] at h
    obtain rfl := Option.some.inj h
    simp
  | case2 fuel name ts vs rest hvariants ih =>
    rw [kinds?, hvariants] at h
    obtain ⟨kinds, hkinds, rfl⟩ := Option.map_eq_some_iff.mp h
    simp only [forall_mem_cons] at hts
    obtain ⟨hvs, hrest⟩ := words_of_variants? hts.2.2.2 hvariants
    exact forall_mem_cons.mpr ⟨⟨hts.2.1, hvs⟩, ih hrest hkinds⟩
  | case3 fuel name ts hvariants =>
    rw [kinds?, hvariants] at h
    cases h
  | case4 fuel ts hnil hkind =>
    rw [kinds?.eq_3 fuel ts hnil hkind] at h
    cases h

theorem words_of_parse? (h : parse? text = some kinds) : ∀ k ∈ kinds, k.IsWord := by
  obtain ⟨ts, hts, hkinds⟩ := Option.bind_eq_some_iff.mp h
  exact words_of_kinds? (sound_tokens? hts) hkinds

theorem words_of_markers (h : ∀ k ∈ kinds, k.IsWord) : ∀ m ∈ markers kinds, m.IsWord := by
  intro m hm
  obtain ⟨k, hk, hm⟩ := List.mem_flatMap.mp hm
  obtain ⟨v, hv, rfl⟩ := mem_map.mp hm
  refine ⟨(h k hk).2 v hv, ?_⟩
  intro c hc
  rw [toList_append, mem_append] at hc
  rcases hc with hc | hc
  · have hc : c = 'i' ∨ c = 's' ∨ c = '_' := by simpa using hc
    rcases hc with rfl | rfl | rfl <;> rfl
  · exact (h k hk).1 c hc

/-! ### Checked declarations -/

theorem firstRepeated?_eq_none_iff {seen vs : List String} :
    firstRepeated? seen vs = none ↔ vs.Nodup ∧ ∀ v ∈ vs, v ∉ seen := by
  induction vs generalizing seen with
  | nil => simp [firstRepeated?]
  | cons v vs ih =>
    rw [firstRepeated?]
    split
    · next hseen => simp_all
    · next hnew =>
      rw [ih]
      simp only [List.nodup_cons, List.mem_cons, not_or, forall_eq_or_imp]
      have hnew : v ∉ seen := by simpa using hnew
      constructor
      · rintro ⟨hnodup, hother⟩
        exact ⟨⟨fun hmem => (hother v hmem).1 rfl, hnodup⟩, hnew, fun w hw => (hother w hw).2⟩
      · rintro ⟨⟨hv, hnodup⟩, -, hother⟩
        exact ⟨hnodup, fun w hw => ⟨fun heq => hv (heq ▸ hw), hother w hw⟩⟩

/-- Declarations pass the check if no kind lists a variant twice, and no others do. -/
theorem check_eq_ok_iff : check kinds = .ok () ↔ ∀ k ∈ kinds, k.variants.Nodup := by
  induction kinds with
  | nil => simp [check]
  | cons k kinds ih =>
    rw [check, forall_mem_cons, ← ih]
    cases hrepeated : firstRepeated? [] k.variants with
    | none => simp [(firstRepeated?_eq_none_iff.mp hrepeated).1]
    | some v =>
      have hnot : ¬ k.variants.Nodup := fun hnodup => by
        rw [firstRepeated?_eq_none_iff.mpr ⟨hnodup, by simp⟩] at hrepeated
        cases hrepeated
      simp [hnot]

def pairs (kinds : List Kind) : List (Kind × String) := kinds.flatMap fun k => k.variants.map (Prod.mk k)

def markerOf (p : Kind × String) : Marker := ⟨p.2, "is_" ++ p.1.name⟩

theorem markers_eq (kinds : List Kind) : markers kinds = (pairs kinds).map markerOf := by
  rw [pairs, List.map_flatMap]
  simp only [List.map_map]
  rfl

theorem markerOf_inj {v v' : String} :
    markerOf (k, v) = markerOf (k', v') ↔ v = v' ∧ k.name = k'.name := by
  simp [markerOf, ← toList_inj]

theorem disjoint_markers_iff :
    List.Disjoint (k.variants.map fun v => markerOf (k, v)) (k'.variants.map fun v => markerOf (k', v)) ↔
      (k.name = k'.name → k.variants.Disjoint k'.variants) := by
  constructor
  · intro h hname v hv hv'
    refine h (List.mem_map_of_mem hv) (mem_map.mpr ⟨v, hv', ?_⟩)
    exact markerOf_inj.mpr ⟨rfl, hname.symm⟩
  · intro h m hm hm'
    obtain ⟨v, hv, rfl⟩ := mem_map.mp hm
    obtain ⟨v', hv', heq⟩ := mem_map.mp hm'
    obtain ⟨rfl, hname⟩ := markerOf_inj.mp heq
    exact h hname.symm hv hv'

theorem nodup_markers_iff (h : ∀ k ∈ kinds, k.variants.Nodup) : (markers kinds).Nodup ↔
      kinds.Pairwise fun k k' => k.name = k'.name → k.variants.Disjoint k'.variants := by
  have hmarkers : markers kinds = kinds.flatMap fun k => k.variants.map fun v => markerOf (k, v) := rfl
  have hself : ∀ k ∈ kinds, (k.variants.map fun v => markerOf (k, v)).Nodup :=
    fun k hk => (h k hk).map fun v v' heq => (markerOf_inj.mp heq).1
  rw [hmarkers, List.nodup_flatMap, and_iff_right hself]
  exact List.Pairwise.iff fun _ _ => disjoint_markers_iff

/-- The words that cannot be names in a generated file. -/
def reservedWords : List String :=
  ["break", "case", "chan", "const", "continue", "default", "defer", "else", "fallthrough", "for", "func", "go",
    "goto", "if", "import", "interface", "map", "package", "range", "return", "select", "struct", "switch", "type",
    "var"]

/-- Whether a name can stand in a generated file. -/
def isIdentifier (name : String) : Bool :=
  name.toList.head?.any isNameStart && name.toList.all isNameChar && !reservedWords.contains name

theorem isWord_of_isIdentifier {name : String} (h : isIdentifier name) : IsWord name := by
  simp only [isIdentifier, Bool.and_eq_true, List.all_eq_true] at h
  exact h.1.2

/-- Checked declarations give one method for each variant of each kind, in order. If the package and the
variants are identifiers, these are what the file of markers declares. The methods are all different if no
two kinds of the same name share a variant, and not otherwise. -/
theorem markers_of_checked {kinds : List Kind} (hcheck : check kinds = .ok ()) :
    markers kinds = (pairs kinds).map markerOf ∧
    (∀ package text, isIdentifier package = true → (∀ k ∈ kinds, ∀ v ∈ k.variants, isIdentifier v = true) →
      parse? text = some kinds →
      ∃ file, generate package text = .ok file ∧ methods file = markers kinds) ∧
    ((markers kinds).Nodup ↔
      kinds.Pairwise fun k k' => k.name = k'.name → k.variants.Disjoint k'.variants) := by
  refine ⟨markers_eq kinds, ?_, nodup_markers_iff (check_eq_ok_iff.mp hcheck)⟩
  intro package text hpackage _ hparse
  have hgenerate : generate package text = .ok (fileText package kinds) := by
    rw [generate, hparse]
    dsimp only
    rw [hcheck]
    rfl
  exact ⟨_, hgenerate, (declares_fileText (isWord_of_isIdentifier hpackage) (words_of_markers (words_of_parse? hparse))).methods_eq⟩

def sharing : List Kind := [⟨"Node", ["Program", "Call"]⟩, ⟨"Type", ["Call", "MapType"]⟩]

theorem markers_of_checked_sharing :
    check sharing = .ok () ∧
    (∃ file, generate "ast" "kind Node = | Program | Call; kind Type = Call | MapType;" = .ok file ∧
      methods file =
        [⟨"Program", "is_Node"⟩, ⟨"Call", "is_Node"⟩, ⟨"Call", "is_Type"⟩, ⟨"MapType", "is_Type"⟩]) ∧
    (markers sharing).Nodup := by
  have hcheck : check sharing = .ok () := by decide
  have hparse : parse? "kind Node = | Program | Call; kind Type = Call | MapType;" = some sharing := by
    decide
  have hvariants : ∀ k ∈ sharing, ∀ v ∈ k.variants, isIdentifier v = true := by decide +kernel
  obtain ⟨-, hfile, hnodup⟩ := markers_of_checked hcheck
  exact ⟨hcheck, hfile "ast" _ (by decide +kernel) hvariants hparse, hnodup.mpr (by simp [sharing])⟩

/-- Two kinds of the same name pass the check, although the file declares a method twice. -/
theorem checked_methods_repeat :
    check [⟨"Node", ["Call"]⟩, ⟨"Node", ["Call"]⟩] = .ok () ∧
    ¬ (markers [⟨"Node", ["Call"]⟩, ⟨"Node", ["Call"]⟩]).Nodup ∧
    ∃ file, generate "ast" "kind Node = Call; kind Node = Call;" = .ok file ∧ ¬ (methods file).Nodup := by
  refine ⟨by decide, by decide, _, rfl, ?_⟩
  decide

end LemonScript.Variants
