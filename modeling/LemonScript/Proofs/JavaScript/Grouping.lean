import LemonScript.Proofs.JavaScript.TermText
import LemonScript.Proofs.Typing.Sound
/-!
# The written expressions as JavaScript groups them

Every expression is written so that reading the text gives the tree back: each operation stands in
parentheses, a sign stands before parentheses or a number, and only operands without a sign are called,
indexed or raised to a power. The types see to the last of these: what has an index is an array or a map, and
what is called is a function, so it is neither a number nor a truth value nor the name of a kind.
-/

namespace LemonScript

open Library (pi pour species)
open String (append_assoc)

namespace Node

def isSigned : Node → Bool
  | .intLit n => n < 0
  | .floatLit x => JavaScript.isNegative x
  | .unary _ _ leading _ => leading
  | _ => false

def isSpecies : Node → Bool
  | .call (.fn f) _ _ => f.id == species.id
  | _ => false

end Node

namespace JavaScript

/-! ### Trees -/

def operator? : BinaryOp → Option Operator
  | .and => some .and
  | .or => some .or
  | .less => some .less
  | .lessEq => some .lessEqual
  | .equal => some .equal
  | .notEqual => some .notEqual
  | .greaterEq => some .greaterEqual
  | .greater => some .greater
  | .add => some .add
  | .sub => some .sub
  | .mul => some .mul
  | .div => some .div
  | .mod => some .mod
  | .pow => some .pow
  | .addAssign | .subAssign | .other _ => none

def leftOperand (op : BinaryOp) (isSigned : Bool) (left : Term) : Term :=
  if op = .pow && isSigned then .group left else left

variable (table : List Int)

def nameTerm (id : Int) (name : String) : Term := .word (nameText table id name).toList

def variableTerm (v : Variable) : Term :=
  if v.id == pi.id then .field (.word "Math".toList) "PI".toList else nameTerm table v.id v.name

def callTerm (callee : Node) (f : Term) (args : List Term) : Term :=
  match callee with
  | .fn g =>
    if g.id == pour.id then
      .call (.field (.word "console".toList) "log".toList) [.call (.word "__show".toList) args]
    else if g.id == species.id then .signed .typeof (args.head?.getD f)
    else .call f args
  | _ => .call f args

variable {f : Function} {args : Option (List Node)} {type : Ty} {n : Node} {v : Variable}
  {op : BinaryOp}

mutual

/-- The written expression as JavaScript groups it. -/
def termOf : Node → Term
  | .var v => variableTerm table v
  | .fn f => nameTerm table f.id f.name
  | .intLit n => .negatedIf (n < 0) (.number (Nat.toDigits 10 n.natAbs ++ ['n']))
  | .floatLit x => .negatedIf (isNegative x) (.number (magnitude x))
  | .stringLit value => .string (value.toList.flatMap (jsonChar .plain))
  | .boolLit _ value _ => .word (if value then "true" else "false").toList
  | .binary left op right _ =>
    match operator? op with
    | some o => .group (.operation (leftOperand op left.isSigned (termOf left)) o (termOf right))
    | none => .change (termOf left) (op == .addAssign) (termOf right)
  | .unary op operand leading _ =>
    if leading then .signed (if op = .not then .not else .minus) (.group (termOf operand))
    else .crement (termOf operand) (op == .increment)
  | .call callee args _ => callTerm callee (termOf callee) (optionalTerms args)
  | .arrayLit elements _ => .array (optionalTerms elements)
  | .mapLit entries _ => .object (entryTerms entries)
  | .member array index _ => .group (.index (termOf array) (.number (Nat.toDigits 10 (index.getD 0).natAbs)))
  | .property map key _ => .group (.index (termOf map) (termOf key))
  | _ => .word []

def terms : List Node → List Term
  | [] => []
  | n :: ns => termOf n :: terms ns

def optionalTerms : Option (List Node) → List Term
  | none => []
  | some ns => terms ns

def entryTerms : List (Entry Node) → List (Term × Term)
  | [] => []
  | ⟨key, value⟩ :: rest => (termOf key, termOf value) :: entryTerms rest

end

theorem optionalTerms_eq_map (ns : Option (List Node)) : optionalTerms table ns = (ns.getD []).map (termOf table) := by
  have hterms : ∀ l : List Node, terms table l = l.map (termOf table) := by
    intro l
    induction l with
    | nil => rfl
    | cons n l ih => rw [terms, ih, List.map_cons]
  cases ns with
  | none => rfl
  | some ns => exact hterms ns

theorem entryTerms_eq_map (es : List (Entry Node)) :
    entryTerms table es = es.map fun e => (termOf table e.key, termOf table e.value) := by
  induction es with
  | nil => rfl
  | cons e es ih => rw [entryTerms, ih, List.map_cons]

theorem optionalTexts_eq_map (ns : Option (List Node)) :
    optionalTexts table ns = (ns.getD []).map (expressionText table) := by
  have htexts : ∀ l : List Node, expressionTexts table l = l.map (expressionText table) := by
    intro l
    induction l with
    | nil => rfl
    | cons n l ih => rw [expressionTexts, ih, List.map_cons]
  cases ns with
  | none => rfl
  | some ns => exact htexts ns

theorem entryTexts_eq_map (es : List (Entry Node)) :
    entryTexts table es = es.map fun e => entryText (expressionText table e.key) (expressionText table e.value) := by
  induction es with
  | nil => rfl
  | cons e es ih =>
    rw [entryTexts, ih, List.map_cons]
    rfl

variable {table} {a b : String} {t u : Term}

/-! ### What the types say -/

section Types

variable {R : Roster} {n : Node}

theorem call_species (h : (Node.call (.fn f) args type).IsSound R)
    (hspecies : (f.id == species.id) = true) :
    type = .string ∧ ∃ n, args.getD [] = [n] := by
  obtain ⟨params, htype, hparams⟩ := h.self.obeys
  have hlibrary : Entity.fn species ∈ Library.entities := by simp [Library.entities, Library.functions]
  have hf : Entity.fn f = .fn species :=
    R.unique (h.children _ (.head _)).self.known (R.library _ hlibrary) (beq_iff_eq.mp hspecies)
  cases hf
  cases htype
  exact ⟨rfl, List.length_eq_one_iff.mp hparams.length_eq⟩

theorem isSpecies_eq_false (h : n.IsSound R) (hstring : n.typeOf ≠ .string) : n.isSpecies = false := by
  rw [← Bool.not_eq_true]
  intro hspecies
  unfold Node.isSpecies at hspecies
  split at hspecies
  · exact hstring (call_species h hspecies).1
  · cases hspecies

theorem eq_of_admits_number {t : Ty} (h : Requirement.number.admits t = true) : t = .int ∨ t = .float := by
  cases t with
  | base b =>
    cases b with
    | int => exact .inl rfl
    | float => exact .inr rfl
    | _ => cases h
  | _ => cases h

theorem isSigned_eq_false (h : n.Sound R) (hint : n.typeOf ≠ .int) (hfloat : n.typeOf ≠ .float)
    (hboolean : n.typeOf ≠ .boolean) : n.isSigned = false := by
  cases n with
  | intLit n => exact absurd rfl hint
  | floatLit x => exact absurd rfl hfloat
  | unary op operand _ type =>
    rcases h.canonical with ⟨hsign, -⟩ | ⟨-, hleading⟩
    · have htypes : op.Types operand.typeOf type := h.obeys
      cases op with
      | neg =>
        rcases eq_of_admits_number htypes.1 with hoperand | hoperand
        · exact absurd (htypes.2.trans hoperand) hint
        · exact absurd (htypes.2.trans hoperand) hfloat
      | not => exact absurd htypes.2 hboolean
      | _ => exact hsign.elim
    · exact hleading
  | _ => rfl

end Types

/-! ### Expressions -/

/-- What is known of the text of an expression: it can be an operand of every operator, and it can be called,
indexed and raised to a power unless a sign stands before it. -/
structure ReadsAs (table : List Int) (n : Node) : Prop where
  loose : LooseText (expressionText table n) (termOf table n)
  tight : n.isSigned = false → n.isSpecies = false → TightText (expressionText table n) (termOf table n)
  sign : opensWithSign (expressionText table n) = n.isSigned

theorem ReadsAs.of_tight (h : TightText (expressionText table n) (termOf table n))
    (hsign : opensWithSign (expressionText table n) = n.isSigned) : ReadsAs table n :=
  ⟨h.loose, fun _ _ => h, hsign⟩

theorem wordText_variable {E : Vocabulary} (h : v.id = pi.id ∨ E.Has v.id v.name) :
    WordText (variableText table v) (variableTerm table v) := by
  rw [variableText, variableTerm]
  rcases h with h | h
  · rw [h]
    exact @wordText_field "Math" "PI" (by decide) (by decide) (by decide)
  · rw [beq_library_of_vocabulary h rfl]
    exact wordText_name (E.isName h)

theorem readsAs_variable {E : Vocabulary} (h : v.id = pi.id ∨ E.Has v.id v.name) :
    ReadsAs table (.var v) := by
  refine .of_tight (wordText_variable h).tight ?_
  rw [expressionText, variableText]
  rcases h with h | h
  · rw [h]
    exact show opensWithSign "Math.PI" = false by decide
  · rw [beq_library_of_vocabulary h rfl]
    exact opensWithSign_name (E.isName h)

theorem readsAs_int (n : Int) : ReadsAs table (.intLit n) := by
  have hnumber := numeral?_big n.natAbs
  have hloose := looseText_number hnumber (decide (n < 0))
  have hopens := opensWithSign_number hnumber (decide (n < 0))
  simp only [decide_eq_true_eq] at hloose hopens
  refine ⟨?_, fun hsign _ => ?_, ?_⟩
  · rw [expressionText, ofList_intText, termOf]
    exact hloose
  · have hpos : ¬ n < 0 := by simpa [Node.isSigned] using hsign
    rw [expressionText, ofList_intText, if_neg hpos, termOf, Term.negatedIf, if_neg (by simpa using hpos)]
    exact tightText_number hnumber
  · rw [expressionText, ofList_intText, hopens]
    rfl

theorem readsAs_float {x : Float} (h : x.isFinite = true) : ReadsAs table (.floatLit x) := by
  obtain ⟨n, hn, -⟩ := numeral?_magnitude h
  have htext : floatText x = String.ofList (if isNegative x then '-' :: magnitude x else magnitude x) := by
    rw [← toList_floatText h, String.ofList_toList]
  refine ⟨?_, fun hsign _ => ?_, ?_⟩
  · rw [expressionText, htext, termOf]
    exact looseText_number hn (isNegative x)
  · have hpos : isNegative x = false := hsign
    rw [expressionText, htext, termOf, Term.negatedIf, hpos]
    exact tightText_number hn
  · rw [expressionText, htext]
    exact opensWithSign_number hn (isNegative x)

theorem readsAs_string (value : String) : ReadsAs table (.stringLit value) := by
  refine .of_tight (tightText_string value) ?_
  rw [expressionText, opensWithSign, jsonString, String.toList_ofList]
  rfl

theorem readsAs_bool (name : String) (value : Bool) (type : Ty) : ReadsAs table (.boolLit name value type) := by
  refine .of_tight (tightText_bool value) ?_
  cases value with
  | true => exact show opensWithSign "true" = false by decide
  | false => exact show opensWithSign "false" = false by decide

section Composite

variable {R : Roster}

theorem cuts_operator {o : Operator} (h : operator? op = some o) (hpow : op ≠ .pow) :
    Cuts (" " ++ operatorText op ++ " ") [.mark (.operator o)] ∧
      opensWithStop (" " ++ operatorText op ++ " ") = true ∧ o ≠ .pow := by
  cases op with
  | addAssign | subAssign | other => cases h
  | pow => exact absurd rfl hpow
  | _ =>
    cases h
    exact ⟨cuts_fixed _ (by decide), by decide, by decide⟩

theorem binaryText_eq (hop : op.IsInfix) (hpow : op ≠ .pow) (a b : String) :
    binaryText a op b = "(" ++ (a ++ (" " ++ operatorText op ++ " ") ++ b) ++ ")" := by
  have hflat : binaryText a op b = "(" ++ a ++ " " ++ operatorText op ++ " " ++ b ++ ")" := by
    cases op with
    | addAssign | subAssign | other => exact hop.elim
    | pow => exact absurd rfl hpow
    | _ => rfl
  rw [hflat]
  simp only [append_assoc]

theorem powerText_eq (a b : String) : binaryText a .pow b =
    "(" ++ ((if opensWithSign a then "(" ++ a ++ ")" else a) ++ " ** " ++ b) ++ ")" := by
  rw [← startsWith_sign, binaryText]
  split
  · change "((" ++ a ++ ") ** " ++ b ++ ")" = _
    rw [show "((" = "(" ++ "(" from rfl, show ") ** " = ")" ++ " ** " from rfl]
    simp only [append_assoc]
  · change "(" ++ a ++ " ** " ++ b ++ ")" = _
    simp only [append_assoc]

theorem tightText_binary {left right : Node} (hop : op.IsInfix)
    (hsound : (Node.binary left op right type).IsSound R) (hleft : ReadsAs table left)
    (hright : ReadsAs table right) :
    TightText (expressionText table (.binary left op right type)) (termOf table (.binary left op right type)) := by
  rw [expressionText, termOf]
  by_cases hpow : op = .pow
  · subst hpow
    have hnumber : Requirement.number.admits left.typeOf = true := hsound.self.obeys.1
    have hspecies : left.isSpecies = false := by
      apply isSpecies_eq_false (hsound.children left (.head _))
      rcases eq_of_admits_number hnumber with h | h <;> rw [h] <;> simp
    rw [powerText_eq, hleft.sign]
    cases hsigned : left.isSigned with
    | true => exact (hleft.loose.whole.group.power hright.loose).group
    | false => exact ((hleft.tight hsigned hspecies).power hright.loose).group
  · obtain ⟨o, ho⟩ : ∃ o, operator? op = some o := by
      cases op with
      | addAssign | subAssign | other => exact hop.elim
      | _ => exact ⟨_, rfl⟩
    obtain ⟨hcuts, hstop, hne⟩ := cuts_operator ho hpow
    rw [binaryText_eq hop hpow, ho, leftOperand, if_neg (by simp [hpow])]
    exact (hleft.loose.operation hcuts hstop hne hright.loose).group

theorem readsAs_binary {left right : Node} (hop : op.IsInfix)
    (hsound : (Node.binary left op right type).IsSound R) (hleft : ReadsAs table left)
    (hright : ReadsAs table right) : ReadsAs table (.binary left op right type) := by
  refine .of_tight (tightText_binary hop hsound hleft hright) ?_
  rw [expressionText]
  by_cases hpow : op = .pow
  · rw [hpow, powerText_eq, append_assoc]
    exact opensWithSign_fixed (by decide) _
  · rw [binaryText_eq hop hpow, append_assoc]
    exact opensWithSign_fixed (by decide) _

theorem readsAs_unary {op : UnaryOp} {operand : Node} {leading : Bool} (hop : op.IsSign)
    (hsound : (Node.unary op operand leading type).Sound R) (hoperand : ReadsAs table operand) :
    ReadsAs table (.unary op operand leading type) := by
  have hleading : leading = true := by
    rcases hsound.canonical with ⟨-, h⟩ | ⟨h, -⟩
    · exact h
    · cases op <;> first | exact hop.elim | exact h.elim
  subst hleading
  refine ⟨?_, fun hsign => Bool.noConfusion hsign, ?_⟩
  · rw [expressionText, termOf, if_pos rfl]
    have hwhole := hoperand.loose.whole
    cases op with
    | neg => exact hwhole.signed (cuts_fixed "-(" (by decide))
    | not => exact hwhole.signed (cuts_fixed "!(" (by decide))
    | _ => exact hop.elim
  · rw [expressionText, unaryText, if_pos rfl, opensWithSign]
    simp only [String.toList_append, List.append_assoc]
    cases op with
    | neg | not => rfl
    | _ => exact hop.elim

theorem wholeTexts {ns : List Node} (h : ∀ n ∈ ns, ReadsAs table n) :
    List.Forall₂ WholeText (ns.map (expressionText table)) (ns.map (termOf table)) := by
  rw [List.forall₂_map_left_iff, List.forall₂_map_right_iff, List.forall₂_same]
  exact fun n hn => (h n hn).loose.whole

theorem readsAs_array {elements : Option (List Node)} (h : ∀ n ∈ elements.getD [], ReadsAs table n) :
    ReadsAs table (.arrayLit elements type) := by
  have hcomma : Cuts "," [.mark .comma] := cuts_fixed "," (by decide)
  apply ReadsAs.of_tight
  · rw [expressionText, termOf, optionalTexts_eq_map, optionalTerms_eq_map]
    exact (listedText_intercalate hcomma (by decide) (wholeTexts h)).array
  · rw [expressionText, append_assoc]
    exact opensWithSign_fixed (by decide) _

theorem readsAs_map {entries : List (Entry Node)}
    (h : ∀ n ∈ entries.flatMap Entry.children, ReadsAs table n) :
    ReadsAs table (.mapLit entries type) := by
  apply ReadsAs.of_tight
  · rw [expressionText, termOf, entryTexts_eq_map, entryTerms_eq_map]
    apply tightText_object
    rw [List.forall₂_map_left_iff, List.forall₂_map_right_iff, List.forall₂_same]
    intro e he
    have hkey : e.key ∈ entries.flatMap Entry.children := List.mem_flatMap.mpr ⟨e, he, .head _⟩
    have hvalue : e.value ∈ entries.flatMap Entry.children := List.mem_flatMap.mpr ⟨e, he, .tail _ (.head _)⟩
    exact ⟨_, _, rfl, (h _ hkey).loose.whole, (h _ hvalue).loose.whole⟩
  · rw [expressionText, append_assoc]
    exact opensWithSign_fixed (by decide) _

theorem readsAs_access {base : Node} {key : String} (hbase : base.IsSound R)
    (hn : ReadsAs table base) (hint : base.typeOf ≠ .int) (hfloat : base.typeOf ≠ .float)
    (hboolean : base.typeOf ≠ .boolean) (hstring : base.typeOf ≠ .string) (hkey : WholeText key u)
    (htext : expressionText table n = "(" ++ expressionText table base ++ "[" ++ key ++ "])")
    (hterm : termOf table n = .group (.index (termOf table base) u)) (hsigned : n.isSigned = false) :
    ReadsAs table n := by
  have hgroup : expressionText table n = "(" ++ (expressionText table base ++ "[" ++ key ++ "]") ++ ")" := by
    rw [htext, show "])" = "]" ++ ")" from rfl]
    simp only [append_assoc]
  have htight := hn.tight (isSigned_eq_false hbase.self hint hfloat hboolean) (isSpecies_eq_false hbase hstring)
  apply ReadsAs.of_tight
  · rw [hgroup, hterm]
    exact (htight.index hkey).loose.whole.group
  · rw [hgroup, hsigned, append_assoc]
    exact opensWithSign_fixed (by decide) _

theorem readsAs_member {array : Node} {index : Option Int}
    (hsound : (Node.member array index type).IsSound R) (harray : ReadsAs table array) :
    ReadsAs table (.member array index type) := by
  have htype : array.typeOf = .array type := hsound.self.obeys
  obtain ⟨k, rfl⟩ := hsound.self.canonical
  exact readsAs_access (hsound.children array (.head _)) harray (by simp [htype]) (by simp [htype])
    (by simp [htype]) (by simp [htype]) (wholeText_index k) rfl rfl rfl

theorem readsAs_property {map key : Node} (hsound : (Node.property map key type).IsSound R)
    (hmap : ReadsAs table map) (hkey : ReadsAs table key) :
    ReadsAs table (.property map key type) := by
  obtain ⟨keyType, htype, -⟩ := hsound.self.obeys
  exact readsAs_access (hsound.children map (.head _)) hmap (by simp [htype]) (by simp [htype])
    (by simp [htype]) (by simp [htype]) hkey.loose.whole rfl rfl rfl

theorem readsAs_plainCall {callee : Node} {params : List Ty} (hcallee : callee.IsSound R)
    (htype : callee.typeOf = .func params type) (hn : ReadsAs table callee)
    (hargs : ∀ n ∈ args.getD [], ReadsAs table n) (htext : expressionText table n =
      expressionText table callee ++ "(" ++ commaList (optionalTexts table args) ++ ")")
    (hterm : termOf table n = .call (termOf table callee) (optionalTerms table args))
    (hsigned : n.isSigned = false) : ReadsAs table n := by
  have hcomma : Cuts ", " [.mark .comma] := cuts_fixed ", " (by decide)
  have hplain : callee.isSigned = false :=
    isSigned_eq_false hcallee.self (by simp [htype]) (by simp [htype]) (by simp [htype])
  have htight := hn.tight hplain (isSpecies_eq_false hcallee (by simp [htype]))
  apply ReadsAs.of_tight
  · rw [htext, hterm, optionalTexts_eq_map, optionalTerms_eq_map]
    exact htight.call (listedText_intercalate hcomma (by decide) (wholeTexts hargs))
  · rw [htext, hsigned, append_assoc, append_assoc]
    exact opensWithSign_append (hn.sign.trans hplain) (opensWithSign_fixed (by decide) _)

theorem readsAs_pour (hpour : (f.id == pour.id) = true)
    (hargs : ∀ n ∈ args.getD [], ReadsAs table n) : ReadsAs table (.call (.fn f) args type) := by
  have hcomma : Cuts ", " [.mark .comma] := cuts_fixed ", " (by decide)
  have hlog : TightText "console.log" (.field (.word "console".toList) "log".toList) :=
    (@wordText_field "console" "log" (by decide) (by decide) (by decide)).tight
  have hshow : TightText "__show" (.word "__show".toList) :=
    (wordText_word (isWord_of_all (by decide)) (by decide) (by decide)).tight
  have hlist := listedText_intercalate hcomma (by decide) (wholeTexts hargs)
  have hshown : ListedText ("__show" ++ "(" ++ commaList (optionalTexts table args) ++ ")")
      [.call (.word "__show".toList) (optionalTerms table args)] := by
    rw [optionalTexts_eq_map, optionalTerms_eq_map]
    obtain ⟨ts, hts, h⟩ := hshow.call hlist
    exact ⟨ts, hts, .inr (.single h.whole)⟩
  have htext : expressionText table (.call (.fn f) args type) =
      "console.log" ++ "(" ++ ("__show" ++ "(" ++ commaList (optionalTexts table args) ++ ")") ++ ")" := by
    rw [expressionText, callText, if_pos hpour]
    change "console.log(__show(" ++ commaList (optionalTexts table args) ++ "))" = _
    rw [show "console.log(__show(" = "console.log" ++ "(" ++ "__show" ++ "(" from rfl,
      show "))" = ")" ++ ")" from rfl]
    simp only [append_assoc]
  apply ReadsAs.of_tight
  · rw [htext, termOf, callTerm, if_pos hpour]
    exact hlog.call hshown
  · rw [htext, append_assoc, append_assoc]
    exact opensWithSign_fixed (by decide) _

theorem readsAs_species (hsound : (Node.call (.fn f) args type).IsSound R)
    (hpour : ¬ (f.id == pour.id) = true) (hspecies : (f.id == species.id) = true)
    (hargs : ∀ n ∈ args.getD [], ReadsAs table n) : ReadsAs table (.call (.fn f) args type) := by
  obtain ⟨-, n, hn⟩ := call_species hsound hspecies
  have htext : expressionText table (.call (.fn f) args type) = "typeof " ++ expressionText table n := by
    rw [expressionText, callText, if_neg hpour, if_pos hspecies, optionalTexts_eq_map, hn]
    rfl
  have hterm : termOf table (.call (.fn f) args type) = .signed .typeof (termOf table n) := by
    rw [termOf, callTerm, if_neg hpour, if_pos hspecies, optionalTerms_eq_map, hn]
    rfl
  have htypeof : Cuts "typeof " [Sign.typeof.lexeme] := cuts_fixed "typeof " (by decide)
  obtain ⟨ts, hts, h⟩ := (hargs n (by rw [hn]; exact .head _)).loose
  refine ⟨?_, fun _ hnot => ?_, ?_⟩
  · rw [htext, hterm]
    exact ⟨_, htypeof.followed hts, h.signed .typeof⟩
  · rw [Node.isSpecies, hspecies] at hnot
    cases hnot
  · rw [htext]
    exact opensWithSign_fixed (by decide) _

theorem readsAs_call {E : Vocabulary} {callee : Node}
    (hsound : (Node.call callee args type).IsSound R)
    (hcallee : callee.isLibraryFunction = true ∨ Vocabulary.Tree E callee ∧ ReadsAs table callee)
    (hargs : ∀ n ∈ args.getD [], ReadsAs table n) : ReadsAs table (.call callee args type) := by
  obtain ⟨params, htype, -⟩ := hsound.self.obeys
  have hchild := hsound.children callee (.head _)
  cases callee with
  | fn f =>
    rcases hcallee with hlibrary | ⟨hf, hn⟩
    · by_cases hpour : (f.id == pour.id) = true
      · exact readsAs_pour hpour hargs
      · have hspecies : (f.id == species.id) = true := by
          simpa [Node.isLibraryFunction, hpour] using hlibrary
        exact readsAs_species hsound hpour hspecies hargs
    · have hpour : (f.id == pour.id) = false := beq_library_of_vocabulary hf rfl
      have hspecies : (f.id == species.id) = false := beq_library_of_vocabulary hf rfl
      refine readsAs_plainCall hchild htype hn hargs ?_ ?_ rfl
      · change callText (.fn f) _ _ = _
        rw [callText, hpour, hspecies]
        rfl
      · change callTerm (.fn f) _ _ = _
        rw [callTerm, hpour, hspecies]
        rfl
  | _ =>
    rcases hcallee with hlibrary | ⟨-, hn⟩
    · cases hlibrary
    · exact readsAs_plainCall hchild htype hn hargs rfl rfl rfl

end Composite

variable {R : Roster} {E : Vocabulary} {Γ : Site}

mutual

theorem readsAs_expression : ∀ {n : Node}, n.IsSound R → Scoped.Expression Γ n → Vocabulary.Tree E n →
    ReadsAs table n
  | .var _, _, _, hn => readsAs_variable hn
  | .fn _, _, _, hn => .of_tight (wordText_name (E.isName hn)).tight (opensWithSign_name (E.isName hn))
  | .intLit n, _, _, _ => readsAs_int n
  | .floatLit _, hsound, _, _ => readsAs_float hsound.self.canonical
  | .stringLit value, _, _, _ => readsAs_string value
  | .boolLit name value type, _, _, _ => readsAs_bool name value type
  | .binary left _ right _, hsound, h, hn =>
    readsAs_binary h.1 hsound (readsAs_expression (hsound.children left (.head _)) h.2.1 hn.1)
      (readsAs_expression (hsound.children right (.tail _ (.head _))) h.2.2 hn.2)
  | .unary _ operand _ _, hsound, h, hn =>
    readsAs_unary h.1 hsound.self (readsAs_expression (n := operand) (hsound.children operand (.head _)) h.2 hn)
  | .call callee _ _, hsound, h, hn =>
    readsAs_call hsound
      (hn.1.imp_right fun hcallee =>
        ⟨hcallee, readsAs_expression (hsound.children callee (.head _)) h.1 hcallee⟩)
      (readsAs_optional (fun n hmem => hsound.children n (.tail _ hmem)) h.2 hn.2)
  | .arrayLit elements _, hsound, h, hn => readsAs_array (readsAs_optional (l := elements) hsound.children h hn)
  | .mapLit entries _, hsound, h, hn => readsAs_map (readsAs_entries (l := entries) hsound.children h hn)
  | .member array _ _, hsound, h, hn =>
    readsAs_member hsound (readsAs_expression (n := array) (hsound.children array (.head _)) h.2 hn)
  | .property map key _, hsound, h, hn =>
    readsAs_property hsound (readsAs_expression (hsound.children map (.head _)) h.1 hn.1)
      (readsAs_expression (hsound.children key (.tail _ (.head _))) h.2 hn.2)

theorem readsAs_expressions : ∀ {l : List Node}, (∀ n ∈ l, n.IsSound R) → Scoped.Expressions Γ l →
    Vocabulary.Trees E l → ∀ n ∈ l, ReadsAs table n
  | [], _, _, _ => List.forall_mem_nil _
  | n :: _, hsound, h, hl =>
    List.forall_mem_cons.mpr ⟨readsAs_expression (hsound n (.head _)) h.1 hl.1,
      readsAs_expressions (fun m hm => hsound m (.tail _ hm)) h.2 hl.2⟩

theorem readsAs_optional : ∀ {l : Option (List Node)}, (∀ n ∈ l.getD [], n.IsSound R) → Scoped.Optional Γ l →
    Vocabulary.Optional E l → ∀ n ∈ l.getD [], ReadsAs table n
  | none, _, _, _ => List.forall_mem_nil _
  | some ns, hsound, h, hl => readsAs_expressions (l := ns) hsound h hl

theorem readsAs_entries : ∀ {l : List (Entry Node)}, (∀ n ∈ l.flatMap Entry.children, n.IsSound R) →
    Scoped.Entries Γ l → Vocabulary.Entries E l → ∀ n ∈ l.flatMap Entry.children, ReadsAs table n
  | [], _, _, _ => List.forall_mem_nil _
  | ⟨key, value⟩ :: rest, hsound, h, hl => by
    rw [List.flatMap_cons, List.forall_mem_append] at hsound ⊢
    refine ⟨forall_mem_two ?_ ?_, readsAs_entries hsound.2 h.2.2 hl.2.2⟩
    · exact readsAs_expression (hsound.1 key (.head _)) h.1 hl.1
    · exact readsAs_expression (hsound.1 value (.tail _ (.head _))) h.2.1 hl.2.1

end

theorem changeText_eq (hop : op.IsUpdate) (a b : String) :
    binaryText a op b = a ++ (" " ++ op.spelling ++ " ") ++ b := by
  have hflat : binaryText a op b = a ++ " " ++ op.spelling ++ " " ++ b := by
    cases op with
    | addAssign | subAssign => rfl
    | _ => exact hop.elim
  rw [hflat]
  simp only [append_assoc]

theorem isTarget_variable : (variableTerm table v).isTarget = true := by
  rw [variableTerm]
  split <;> rfl

theorem wholeText_update (hsound : n.IsSound R) (h : Scoped.Update Γ n) (hn : Vocabulary.Tree E n) :
    WholeText (expressionText table n) (termOf table n) := by
  unfold Scoped.Update at h
  split at h
  · next v op right type =>
    have hvariable : TightText (variableText table v) (variableTerm table v) := (wordText_variable hn.1).tight
    have hright : ReadsAs table right :=
      readsAs_expression (hsound.children right (.tail _ (.head _))) h.2.2 hn.2
    rw [expressionText, changeText_eq h.2.1]
    cases op with
    | addAssign => exact hvariable.change (cuts_fixed _ (by decide)) (by decide) isTarget_variable hright.loose
    | subAssign => exact hvariable.change (cuts_fixed _ (by decide)) (by decide) isTarget_variable hright.loose
    | _ => exact h.2.1.elim
  · next op v leading type =>
    have hvariable : WordText (variableText table v) (variableTerm table v) := wordText_variable hn
    have hleading : leading = false := by
      rcases hsound.self.canonical with ⟨hsign, -⟩ | ⟨-, hleading⟩
      · have hupdate := h.2
        cases op <;> first | exact hsign.elim | exact hupdate.elim
      · exact hleading
    subst hleading
    cases op with
    | increment => exact hvariable.crement (cuts_fixed "++" (by decide)) (by decide) isTarget_variable
    | decrement => exact hvariable.crement (cuts_fixed "--" (by decide)) (by decide) isTarget_variable
    | _ => exact h.2.elim
  · exact h.elim

end JavaScript

end LemonScript
