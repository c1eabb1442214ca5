import LemonScript.Assembly.Reader
import LemonScript.Proofs.Assembly.Token
/-!
# Assembly modules are read back

A module whose constants hold text, and all of whose names are there and different from each other, is
read back from the text in which it is written. Types, parameters and the parts of a module are each read
from their tokens whatever follows, by as many steps as there are tokens.
-/

namespace LemonScript.Assembly

open List (all_eq_true append_assoc cons_append length_append length_cons nil_append)

/-! ### Types -/

def AsmType.tokens : AsmType → List AsmToken
  | void => [.word "void".toList]
  | int bits => [.word ('i' :: Nat.toDigits 10 bits)]
  | double => [.word "double".toList]
  | pointer target => target.tokens ++ [.mark '*']
  | array size element =>
    .mark '[' :: .word (Nat.toDigits 10 size) :: .word ['x'] :: (element.tokens ++ [.mark ']'])

variable {fuel : Nat} {p : AsmType × String} {m : AsmModule}
variable {ps : List (AsmType × String)} {d : Declaration}

theorem isWordChar_of_mem_toDigits {n : Nat} {c : Char} (h : c ∈ Nat.toDigits 10 n) :
    isWordChar c := by
  have hdigits : ∀ d < 10, isWordChar (Nat.digitChar d) = true := by decide
  obtain ⟨d, hd, rfl⟩ := mem_toDigits (by decide) h
  exact hdigits d hd

theorem toList_repr (n : Nat) : n.repr.toList = Nat.toDigits 10 n := by
  rw [Nat.repr_eq_ofList_toDigits, String.toList_ofList]

theorem ends_repr (n : Nat) : Ends n.repr [.word (Nat.toDigits 10 n)] := by
  have hne : n.repr ≠ "" := by
    intro h
    have hnil := toList_repr n
    rw [h] at hnil
    exact Nat.toDigits_ne_nil hnil.symm
  rw [← toList_repr]
  refine ends_word hne (all_eq_true.2 fun c hc => ?_)
  rw [toList_repr] at hc
  exact isWordChar_of_mem_toDigits hc

theorem spells_blank : Spells " " [] := spells_char (c := ' ') rfl

theorem delimits_blank : Delimits " " := ⟨' ', [], rfl, by decide⟩

theorem spells_times : Spells " x " [.word ['x']] := by
  have hword : Ends "x" [.word ['x']] := ends_word (by decide) (by decide)
  exact spells_blank.append (hword.append spells_blank delimits_blank)

theorem ends_type (t : AsmType) : Ends t.text t.tokens := by
  induction t with
  | void | double => exact ends_word (by decide) (by decide)
  | int bits =>
    have hlist : ("i" ++ bits.repr).toList = 'i' :: Nat.toDigits 10 bits := by
      rw [String.toList_append, toList_repr]
      rfl
    have hword := ends_word (w := "i" ++ bits.repr) (by simp) (by
      rw [hlist, all_eq_true]
      exact List.forall_mem_cons.2 ⟨by decide, fun c hc => isWordChar_of_mem_toDigits hc⟩)
    rw [hlist] at hword
    exact hword
  | pointer _ ih => exact (ih.append (spells_char (c := '*') rfl) ⟨'*', [], rfl, by decide⟩).ends
  | array size _ ih =>
    have hsize := (spells_char (c := '[') rfl).append_ends (ends_repr size)
    have helement := (hsize.append spells_times ⟨' ', ['x', ' '], rfl, by decide⟩).append_ends ih
    have hclosed := helement.append (spells_char (c := ']') rfl) ⟨']', [], rfl, by decide⟩
    simpa [AsmType.tokens, AsmType.text] using hclosed.ends

theorem natural?_toDigits (n : Nat) : natural? (Nat.toDigits 10 n) = some n := by
  have hall : (Nat.toDigits 10 n).all isDigit = true :=
    all_eq_true.2 fun c hc => isDigit_of_mem_toDigits hc
  rw [natural?, if_pos (by simp [hall]), decimalValue_toDigits]

theorem type?_word {word : List Char} {t : AsmType} (h : wordType? word = some t) (fuel : Nat)
    (rest : List AsmToken) : type? fuel (.word word :: rest) = some (pointers t rest) := by
  rw [type?, h, Option.map_some]

theorem type?_tokens (t : AsmType) (hfuel : t.tokens.length ≤ fuel) (rest : List AsmToken) :
    type? fuel (t.tokens ++ rest) = some (pointers t rest) := by
  induction t generalizing fuel rest with
  | void | double => exact type?_word (by decide) fuel rest
  | int =>
    refine type?_word ?_ fuel rest
    rw [wordType?, natural?_toDigits, Option.map_some]
  | pointer _ ih =>
    rw [AsmType.tokens, length_append] at hfuel
    rw [AsmType.tokens, append_assoc, ih (by omega)]
    rfl
  | array size element ih =>
    simp only [AsmType.tokens, length_cons, length_append] at hfuel
    obtain ⟨fuel, rfl⟩ : ∃ n, fuel = n + 1 := ⟨fuel - 1, by omega⟩
    have hless : element.tokens.length ≤ fuel := by omega
    have helement := ih hless (.mark ']' :: rest)
    simp only [AsmType.tokens, cons_append, append_assoc, nil_append]
    rw [type?, natural?_toDigits, helement]
    rfl

theorem AsmType.tokens_head (t : AsmType) :
    (∃ word more, t.tokens = .word word :: more) ∨ ∃ more, t.tokens = .mark '[' :: more := by
  induction t with
  | pointer _ ih =>
    rw [tokens]
    rcases ih with ⟨word, more, h⟩ | ⟨more, h⟩
    · exact .inl ⟨word, more ++ [.mark '*'], by rw [h]; rfl⟩
    · exact .inr ⟨more ++ [.mark '*'], by rw [h]; rfl⟩
  | array => exact .inr ⟨_, rfl⟩
  | _ => exact .inl ⟨_, _, rfl⟩

/-! ### Parameters -/

def paramTokens (p : AsmType × String) : List AsmToken := p.1.tokens ++ [.local p.2]

def paramsTokens : List (AsmType × String) → List AsmToken
  | [] => []
  | [p] => paramTokens p
  | p :: ps => paramTokens p ++ .mark ',' :: paramsTokens ps

def paramText (p : AsmType × String) : String := p.1.text ++ " %" ++ nameText p.2

theorem ends_param (hp : p.2 ≠ "") : Ends (paramText p) (paramTokens p) := by
  have hname := spells_blank.append_ends (ends_local hp)
  have hdelimits : Delimits (" " ++ ("%" ++ nameText p.2)) :=
    ⟨' ', '%' :: (nameText p.2).toList, by simp, by decide⟩
  have hparam := (ends_type p.1).append_ends hname hdelimits
  rw [paramText, String.append_assoc, show " %" = " " ++ "%" from rfl, String.append_assoc]
  exact hparam

theorem ends_params (hps : ∀ q ∈ p :: ps, q.2 ≠ "") :
    Ends (", ".intercalate ((p :: ps).map paramText)) (paramsTokens (p :: ps)) := by
  induction ps generalizing p with
  | nil => exact ends_param (hps p (by simp))
  | cons q qs ih =>
    obtain ⟨hp, hqs⟩ := List.forall_mem_cons.1 hps
    have hcomma : Spells ", " [.mark ','] := (spells_char (c := ',') rfl).append spells_blank
    have hfirst := (ends_param hp).append hcomma ⟨',', [' '], rfl, by decide⟩
    have hall := hfirst.append_ends (ih hqs)
    rw [append_assoc] at hall
    rw [List.map_cons, List.map_cons, String.intercalate_cons_cons]
    exact hall

theorem params?_tokens (hfuel : (paramsTokens (p :: ps)).length ≤ fuel) (rest : List AsmToken) :
    params? fuel (paramsTokens (p :: ps) ++ .mark ')' :: rest) = some (p :: ps, rest) := by
  induction ps generalizing p fuel with
  | nil =>
    have htokens : paramsTokens [p] ++ .mark ')' :: rest =
        p.1.tokens ++ .local p.2 :: .mark ')' :: rest := by
      simp [paramsTokens, paramTokens]
    simp only [paramsTokens, paramTokens, length_append, List.length_singleton] at hfuel
    obtain ⟨fuel, rfl⟩ : ∃ n, fuel = n + 1 := ⟨fuel - 1, by omega⟩
    rw [htokens, params?, type?_tokens p.1 (by omega)]
    rfl
  | cons q qs ih =>
    have htokens : paramsTokens (p :: q :: qs) ++ .mark ')' :: rest =
        p.1.tokens ++ .local p.2 :: .mark ',' :: (paramsTokens (q :: qs) ++ .mark ')' :: rest) := by
      simp [paramsTokens, paramTokens]
    simp only [paramsTokens, paramTokens, length_append, length_cons, List.length_nil] at hfuel
    obtain ⟨fuel, rfl⟩ : ∃ n, fuel = n + 1 := ⟨fuel - 1, by omega⟩
    have hmore : params? fuel (paramsTokens (q :: qs) ++ .mark ')' :: rest) = some (q :: qs, rest) :=
      ih (by omega)
    rw [htokens, params?, type?_tokens p.1 (by omega)]
    exact congrArg (Option.bind · _) hmore

/-! ### Parts -/

/-- The text is a part of a module that is read by itself and adds something to the module. -/
def Adds (text : String) (add : AsmModule → AsmModule) : Prop :=
  ∃ ts, Spells text ts ∧ ts ≠ [] ∧ ∀ fuel m rest, ts.length ≤ fuel →
    part? fuel m (ts ++ rest) = some (add m, rest)

def AsmModule.withSource (source : String) (m : AsmModule) : AsmModule := { m with source }

def AsmModule.withGlobal (g : Global) (m : AsmModule) : AsmModule := { m with globals := m.globals ++ [g] }

def AsmModule.withDeclaration (d : Declaration) (m : AsmModule) : AsmModule :=
  { m with declarations := m.declarations ++ [d] }

theorem spells_assign : Spells " = " [.mark '='] :=
  spells_blank.append ((spells_char (c := '=') rfl).append spells_blank)

theorem spells_line : Spells "\n" [] := spells_char (c := '\n') rfl

theorem adds_source (source : String) :
    Adds ("source_filename = " ++ quotedBytes source.toUTF8.toList ++ "\n") (.withSource source) := by
  have hword : Ends "source_filename" [.word "source_filename".toList] :=
    ends_word (by decide) (by decide)
  have hassign := hword.append spells_assign ⟨' ', ['=', ' '], rfl, by decide⟩
  refine ⟨_, (hassign.append (spells_text _)).append spells_line, by simp, ?_⟩
  intro fuel m rest _
  simp only [cons_append, nil_append, part?, decodeUtf8_toUTF8]
  rfl

def kindWord (isConst : Bool) : String := if isConst then "constant" else "global"

theorem spells_kind (isConst : Bool) :
    Spells (if isConst then "constant " else "global ") [.word (kindWord isConst).toList] := by
  have hword : Ends (kindWord isConst) [.word (kindWord isConst).toList] := by
    cases isConst <;> exact ends_word (by decide) (by decide)
  have hspells := hword.append spells_blank delimits_blank
  cases isConst <;> exact hspells

structure Global.HoldsBytes (g : Global) : Prop where
  name : g.name ≠ ""
  bytes : ∃ value, g.value = .bytes value ∧ g.type = .array value.length (.int 8)

theorem adds_global {g : Global} (hg : g.HoldsBytes) : Adds g.text (.withGlobal g) := by
  obtain ⟨name, isConst, type, value⟩ := g
  obtain ⟨hne, bytes, hvalue, htype⟩ := hg
  dsimp only at hne hvalue htype
  subst hvalue htype
  have hname := (ends_global hne).append spells_assign ⟨' ', ['=', ' '], rfl, by decide⟩
  have htype := (hname.append (spells_kind isConst)).append_ends (ends_type (.array bytes.length (.int 8)))
  have hvalue := (htype.append spells_blank delimits_blank).append (spells_bytes bytes)
  refine ⟨_, hvalue.append spells_line, by simp, ?_⟩
  intro fuel m rest hfuel
  simp only [append_assoc, cons_append, nil_append, length_append, length_cons,
    List.length_nil, List.append_nil] at hfuel ⊢
  have hread : type? fuel ((AsmType.array bytes.length (.int 8)).tokens ++ .bytes bytes :: rest) =
      some (.array bytes.length (.int 8), .bytes bytes :: rest) := type?_tokens _ (by omega) _
  have hconstant : constant? (.array bytes.length (.int 8)) (.bytes bytes :: rest) =
      some (.bytes bytes, rest) := by simp [constant?]
  simp only [part?, hread, Option.bind_eq_bind, Option.bind_some, hconstant]
  cases isConst <;> rfl

/-! ### Declarations -/

structure Declaration.Named (d : Declaration) : Prop where
  name : d.name ≠ ""
  params : ∀ p ∈ d.params, p.2 ≠ ""

def signatureTokens (d : Declaration) : List AsmToken :=
  .global d.name :: .mark '(' :: (paramsTokens d.params ++ [.mark ')'])

theorem spells_declaration (hd : d.Named) :
    Spells d.text (.word "declare".toList :: (d.result.tokens ++ signatureTokens d)) := by
  obtain ⟨name, result, params⟩ := d
  obtain ⟨hne, hparams⟩ := hd
  dsimp only at hne hparams
  have hdeclare : Ends "declare" [.word "declare".toList] := ends_word (by decide) (by decide)
  have hresult := (hdeclare.append spells_blank delimits_blank).append_ends (ends_type result)
  have hname := hresult.append_ends (spells_blank.append_ends (ends_global hne))
    ⟨' ', '@' :: (nameText name).toList, by simp, by decide⟩
  have hopen := hname.append (spells_char (c := '(') rfl) ⟨'(', [], rfl, by decide⟩
  have hclose : Spells ")\n" [.mark ')'] := (spells_char (c := ')') rfl).append spells_line
  have hspells : Spells ("declare" ++ " " ++ result.text ++ (" " ++ ("@" ++ nameText name)) ++ "(" ++
      ", ".intercalate (params.map paramText) ++ ")\n")
      ([.word "declare".toList] ++ result.tokens ++ [.global name] ++ [.mark '('] ++ paramsTokens params ++
        [.mark ')']) := by
    cases params with
    | nil => simpa [paramsTokens] using hopen.append hclose
    | cons =>
      simpa using (hopen.append_ends (ends_params hparams)).append hclose ⟨')', ['\n'], rfl, by decide⟩
  have htext : Declaration.text ⟨name, result, params⟩ = "declare" ++ " " ++ result.text ++
      (" " ++ ("@" ++ nameText name)) ++ "(" ++ ", ".intercalate (params.map paramText) ++ ")\n" :=
    String.toList_inj.1 (by
      simp only [Declaration.text, String.toList_append, append_assoc]
      rfl)
  rw [htext]
  simpa [signatureTokens] using hspells

theorem paramsTokens_head (p : AsmType × String) (ps : List (AsmType × String)) :
    (∃ word more, paramsTokens (p :: ps) = .word word :: more) ∨
      ∃ more, paramsTokens (p :: ps) = .mark '[' :: more := by
  obtain ⟨behind, hparams⟩ : ∃ behind, paramsTokens (p :: ps) = p.1.tokens ++ behind := by
    cases ps with
    | nil => exact ⟨_, rfl⟩
    | cons => exact ⟨_, append_assoc _ _ _⟩
  rw [hparams]
  rcases p.1.tokens_head with ⟨word, more, h⟩ | ⟨more, h⟩
  · exact .inl ⟨word, more ++ behind, by rw [h]; rfl⟩
  · exact .inr ⟨more ++ behind, by rw [h]; rfl⟩

theorem part?_declaration (d : Declaration)
    (hfuel : d.result.tokens.length + (signatureTokens d).length ≤ fuel) (m : AsmModule)
    (rest : List AsmToken) :
    part? fuel m (.word "declare".toList :: (d.result.tokens ++ (signatureTokens d ++ rest))) =
      some (m.withDeclaration d, rest) := by
  obtain ⟨name, result, params⟩ := d
  dsimp only at hfuel ⊢
  have hread : type? fuel (result.tokens ++ (signatureTokens ⟨name, result, params⟩ ++ rest)) =
      some (result, signatureTokens ⟨name, result, params⟩ ++ rest) := type?_tokens result (by omega) _
  rw [part?]
  · simp only [hread]
    cases params with
    | nil => rfl
    | cons p ps =>
      simp only [signatureTokens, length_cons, length_append] at hfuel
      have hparams : params? fuel (paramsTokens (p :: ps) ++ .mark ')' :: rest) = some (p :: ps, rest) :=
        params?_tokens (by omega) rest
      have hsignature : signatureTokens ⟨name, result, p :: ps⟩ ++ rest =
          .global name :: .mark '(' :: (paramsTokens (p :: ps) ++ .mark ')' :: rest) := by
        simp [signatureTokens]
      rw [hsignature]
      rcases paramsTokens_head p ps with ⟨word, more, hhead⟩ | ⟨more, hhead⟩
      · rw [hhead] at hparams ⊢
        exact congrArg (Option.bind · _) hparams
      · rw [hhead] at hparams ⊢
        exact congrArg (Option.bind · _) hparams
  · intro source rest' h
    rcases result.tokens_head with ⟨word, more, hhead⟩ | ⟨more, hhead⟩
    · simp [hhead] at h
    · simp [hhead] at h

theorem adds_declaration (hd : d.Named) : Adds d.text (.withDeclaration d) := by
  refine ⟨_, spells_declaration hd, List.cons_ne_nil _ _, ?_⟩
  intro fuel m rest hfuel
  rw [length_cons, length_append] at hfuel
  rw [cons_append, append_assoc]
  exact part?_declaration d (by omega) m rest

/-! ### Modules -/

theorem parts?_of_part {m' : AsmModule} {ts rest : List AsmToken} (hne : ts ≠ [])
    (h : part? (fuel + 1) m (ts ++ rest) = some (m', rest)) :
    parts? (fuel + 1) m (ts ++ rest) = parts? fuel m' rest := by
  obtain ⟨t, ts, rfl⟩ := List.exists_cons_of_ne_nil hne
  rw [cons_append] at h ⊢
  rw [parts?, h]
  · rfl
  · exact List.cons_ne_nil _ _

theorem parts?_intercalate {texts : List String} {adds : List (AsmModule → AsmModule)}
    (h : List.Forall₂ Adds texts adds) :
    ∃ ts, Spells ("\n".intercalate texts) ts ∧ ∀ fuel m, ts.length ≤ fuel →
      parts? fuel m ts = some (adds.foldl (fun m add => add m) m) := by
  induction h with
  | nil =>
    refine ⟨[], spells_empty, fun fuel m _ => ?_⟩
    cases fuel <;> rfl
  | @cons text add texts adds hfirst hrest ih =>
    obtain ⟨ts, hspells, hne, hreads⟩ := hfirst
    obtain ⟨us, hspells', hreads'⟩ := ih
    have hlength := List.length_pos_iff.2 hne
    refine ⟨ts ++ us, ?_, fun fuel m hfuel => ?_⟩
    · cases texts with
      | nil => simpa using hspells.append hspells'
      | cons =>
        rw [String.intercalate_cons_cons]
        simpa using (hspells.append spells_line).append hspells'
    · rw [length_append] at hfuel
      obtain ⟨fuel, rfl⟩ : ∃ n, fuel = n + 1 := ⟨fuel - 1, by omega⟩
      rw [parts?_of_part hne (hreads (fuel + 1) m us (by omega)), hreads' fuel _ (by omega)]
      rfl

/-- Constants hold text, everything has a name, and no two constants or functions have the same one. -/
structure AsmModule.Readable (m : AsmModule) : Prop where
  globals : ∀ g ∈ m.globals, g.HoldsBytes
  declarations : ∀ d ∈ m.declarations, d.Named
  names : m.names.Nodup

theorem allDistinct_of_nodup {names : List String} (h : names.Nodup) : allDistinct names := by
  induction names with
  | nil => rfl
  | cons _ _ ih =>
    obtain ⟨hnot, hrest⟩ := List.nodup_cons.1 h
    simp [allDistinct, hnot, ih hrest]

theorem foldl_withGlobal (m : AsmModule) (gs : List Global) :
    (gs.map AsmModule.withGlobal).foldl (fun m add => add m) m = { m with globals := m.globals ++ gs } := by
  induction gs generalizing m with
  | nil => simp
  | cons g gs ih => simp [ih, AsmModule.withGlobal]

theorem foldl_withDeclaration (m : AsmModule) (ds : List Declaration) :
    (ds.map AsmModule.withDeclaration).foldl (fun m add => add m) m =
      { m with declarations := m.declarations ++ ds } := by
  induction ds generalizing m with
  | nil => simp
  | cons d ds ih => simp [ih, AsmModule.withDeclaration]

theorem adds_parts (h : m.Readable) : List.Forall₂ Adds m.parts
    ((if m.source == "" then [] else [.withSource m.source]) ++ m.globals.map .withGlobal ++
      m.declarations.map .withDeclaration) := by
  have hsource : List.Forall₂ Adds (if m.source == "" then []
      else ["source_filename = " ++ quotedBytes m.source.toUTF8.toList ++ "\n"])
      (if m.source == "" then [] else [.withSource m.source]) := by
    split
    · exact .nil
    · exact .cons (adds_source m.source) .nil
  have hglobals : List.Forall₂ Adds (m.globals.map Global.text) (m.globals.map .withGlobal) := by
    rw [List.forall₂_map_left_iff, List.forall₂_map_right_iff, List.forall₂_same]
    exact fun g hg => adds_global (h.globals g hg)
  have hdeclarations : List.Forall₂ Adds (m.declarations.map Declaration.text)
      (m.declarations.map .withDeclaration) := by
    rw [List.forall₂_map_left_iff, List.forall₂_map_right_iff, List.forall₂_same]
    exact fun d hd => adds_declaration (h.declarations d hd)
  exact List.rel_append (List.rel_append hsource hglobals) hdeclarations

/-- A module is read back from its text. -/
theorem AsmModule.parse?_text (h : m.Readable) : parse? m.text = some m := by
  obtain ⟨ts, hspells, hreads⟩ := parts?_intercalate (adds_parts h)
  have htokens : tokens? m.text = some ts := by
    simpa [tokens?, tokensFrom, AsmModule.text] using hspells []
  have hparts := hreads ts.length ⟨"", [], []⟩ le_rfl
  rw [List.foldl_append, List.foldl_append, foldl_withGlobal, foldl_withDeclaration] at hparts
  have hwhole : parts? ts.length ⟨"", [], []⟩ ts = some m := by
    rw [hparts]
    obtain ⟨source, globals, declarations⟩ := m
    by_cases hsource : source = ""
    · simp [hsource]
    · simp [hsource, AsmModule.withSource]
  unfold parse?
  rw [htokens]
  change (parts? ts.length ⟨"", [], []⟩ ts).bind _ = _
  rw [hwhole, Option.bind_some, allDistinct_of_nodup h.names]
  rfl

end LemonScript.Assembly
