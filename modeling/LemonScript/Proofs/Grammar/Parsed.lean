import LemonScript.Grammar.Program
import LemonScript.Proofs.Grammar.Reading
import LemonScript.Proofs.Number.Binary64
import LemonScript.Proofs.Syntax.Parts
import LemonScript.Proofs.Token.StringLiteral
/-!
# What the grammar reads

Every rule of the grammar gives trees of the right shape, and each step inwards happens behind at least
one character. So the levels that a source gets are enough for it, and a parse ends with a program of
the surface shape, with a syntax error, or with a number that is out of range.

A tree could hold the same expression in several forms: with a list of arguments that is absent or empty,
with a sign behind its operand, with a truth value under any name. In trees that are read from a source
there is only one of them, and all doubles are finite.
-/

namespace LemonScript

open Rule

open List (forall_mem_cons forall_mem_singleton)

variable {M : Node → Prop} {source : List Char} {n low : Nat} {eats : Bool}
variable {ops : List BinaryOp}

namespace Rule

/-! ### Tokens -/

variable {α : Type} {P : α → Prop}

theorem reads_ofTest {f : Scanner → Bool × Scanner}
    (hf : ∀ s, s.Reads source → Scanner.Answers source s ((f s).1) (f s).2) :
    Reads M source n true (fun _ => True) (ofTest f) := by
  intro low s hs hlow _
  obtain ⟨hlater, hfound⟩ := hf s.scanner hs.scanner
  unfold Rule.ofTest
  split
  · next scanner heq =>
    rw [heq] at hlater hfound
    exact ⟨hs.withScanner hlater.reads, hfound rfl, trivial⟩
  · next scanner heq =>
    rw [heq] at hlater
    exact ⟨hs.withScanner hlater.reads, hlow.trans hlater.le⟩

theorem reads_ofScan {f : Scanner → Option α × Scanner}
    (hf : ∀ s, s.Reads source → Scanner.Answers source s ((f s).1.isSome) (f s).2)
    (hP : ∀ s a, (f s).1 = some a → P a) : Reads M source n eats P (ofScan f) := by
  refine Reads.any fun low s hs hlow _ => ?_
  obtain ⟨hlater, hfound⟩ := hf s.scanner hs.scanner
  unfold Rule.ofScan
  split
  · next a scanner heq =>
    have ha : P a := hP s.scanner a (by rw [heq])
    rw [heq] at hlater hfound
    exact ⟨hs.withScanner hlater.reads, hfound rfl, ha⟩
  · next scanner heq =>
    rw [heq] at hlater
    exact ⟨hs.withScanner hlater.reads, hlow.trans hlater.le⟩

theorem reads_keyword (k : Keyword) : Reads M source n eats (fun _ => True) (keyword k) :=
  (reads_ofTest fun _ hs => hs.keyword k).any

theorem reads_operator {op : String} (hop : op ≠ "") :
    Reads M source n eats (fun _ => True) (operator op) :=
  (reads_ofTest fun _ hs => hs.operator hop).any

section Behind

variable {word : Keyword} {op : String} {k : Unit → Rule α}

theorem next_keyword (h : ReadsFrom M source n low false P (k ())) :
    ReadsFrom M source n low eats P (keyword word >>= k) :=
  (reads_keyword word low).next fun _ _ => h

theorem eat_keyword (h : ReadsFrom M source n low false P (k ())) :
    ReadsFrom M source (n + 1) low eats P (keyword word >>= k) :=
  (reads_keyword word low).eat fun _ _ => h

theorem next_operator (hop : op ≠ "") (h : ReadsFrom M source n low false P (k ())) :
    ReadsFrom M source n low eats P (operator op >>= k) :=
  (reads_operator hop low).next fun _ _ => h

theorem eat_operator (hop : op ≠ "") (h : ReadsFrom M source n low false P (k ())) :
    ReadsFrom M source (n + 1) low eats P (operator op >>= k) :=
  (reads_operator hop low).eat fun _ _ => h

end Behind

theorem reads_atEnd : Reads M source n false (fun _ => True) (ofTest Scanner.atEnd) := by
  intro low s hs hlow _
  have hlater := hs.scanner.atEnd
  unfold Rule.ofTest
  split
  · next scanner heq =>
    rw [heq] at hlater
    exact ⟨hs.withScanner hlater.reads, hlater.le, trivial⟩
  · next scanner heq =>
    rw [heq] at hlater
    exact ⟨hs.withScanner hlater.reads, hlow.trans hlater.le⟩

theorem startsWithWord_takeWhile (text : List Char) :
    startsWithWord (text.takeWhile isIdentifierChar) text := by
  have hdrop : text.drop (text.takeWhile isIdentifierChar).length = text.dropWhile isIdentifierChar := by
    calc text.drop (text.takeWhile isIdentifierChar).length
        = (text.takeWhile isIdentifierChar ++ text.dropWhile isIdentifierChar).drop
            (text.takeWhile isIdentifierChar).length := by rw [List.takeWhile_append_dropWhile]
      _ = text.dropWhile isIdentifierChar := List.drop_left
  have hbehind := List.head?_dropWhile_not isIdentifierChar text
  rw [startsWithWord, hdrop, Bool.and_eq_true, List.isPrefixOf_iff_prefix]
  refine ⟨List.takeWhile_prefix _, ?_⟩
  cases hhead : (text.dropWhile isIdentifierChar).head? with
  | none => rfl
  | some c =>
    simp only [hhead, isIdentifierChar, Bool.or_eq_false_iff] at hbehind
    simp [hbehind.1]

theorem startsWithLetter_takeWhile {text : List Char} (h : text.head?.any isLetter) :
    StartsWithLetter (String.ofList (text.takeWhile isIdentifierChar)) := by
  cases text with
  | nil => simp at h
  | cons c cs =>
    have hc : isLetter c = true := by simpa using h
    simp [StartsWithLetter, isIdentifierChar, isWordChar, hc]

/-- The text of an identifier is no reserved word: such a word would have been seen there. -/
theorem isName_of_identifier {s : Scanner} {t : Token} (h : s.identifier.1 = some t) :
    IsName t.text := by
  unfold Scanner.identifier at h
  dsimp only at h
  split at h
  · next name hname =>
    obtain rfl := Option.some.inj h
    unfold identifier? at hname
    split at hname
    · next hcondition =>
      obtain rfl := Option.some.inj hname
      simp only [Bool.and_eq_true, Bool.not_eq_true', startsWithReserved, List.any_eq_false] at hcondition
      refine ⟨startsWithLetter_takeWhile hcondition.1, fun c hc => ?_, fun k hk heq => hcondition.2 k hk ?_⟩
      · exact List.mem_takeWhile_imp (String.toList_ofList ▸ hc)
      have hspelling : k.spelling.toList = s.skipBlanks.cursor.rest.takeWhile isIdentifierChar := by
        rw [← heq]
        exact String.toList_ofList
      rw [hspelling]
      exact startsWithWord_takeWhile _
    · simp at hname
  · simp at h

theorem reads_identifier : Reads M source n eats IsName identifier :=
  Reads.any fun low =>
    (reads_ofScan (P := fun t => IsName t.text) (fun _ hs => hs.identifier)
      (fun _ _ => isName_of_identifier) low).next fun _ ht => readsFrom_pure ht

theorem reads_anyKeyword {ks : List Keyword} :
    Reads M source n eats (fun k => k ∈ ks) (anyKeyword ks) := by
  induction ks with
  | nil => exact fun _ => readsFrom_fail
  | cons k ks ih =>
    refine fun low => ReadsFrom.orElse (fun low => ?_) ((ih.imp fun _ => List.mem_cons_of_mem k) low)
    exact next_keyword (readsFrom_pure List.mem_cons_self)

theorem spelling_ne {op : BinaryOp} (h : op.IsInfix) : op.spelling ≠ "" := by
  cases op <;> first | exact absurd h id | (simp only [BinaryOp.spelling]; decide)

theorem reads_anyOperator (hops : ∀ op ∈ ops, op.IsInfix) :
    Reads M source n eats (fun op => op ∈ ops) (anyOperator ops) := by
  induction ops with
  | nil => exact fun _ => readsFrom_fail
  | cons op ops ih =>
    have hrest := (ih fun op' h => hops op' (List.mem_cons_of_mem op h)).imp
      fun _ => List.mem_cons_of_mem op
    refine fun low => ReadsFrom.orElse (fun low => ?_) (hrest low)
    exact next_operator (spelling_ne (hops op List.mem_cons_self)) (readsFrom_pure List.mem_cons_self)

theorem Reads.separated {item : Rule α} {limit : Nat} (hitem : Reads M source n true P item)
    (hlimit : n ≤ limit) :
    Reads M source n false (fun as => ∀ a ∈ as, P a) (separated item limit) := by
  refine fun low => (hitem.attempt low).andThen fun first hfirst => ?_
  cases first with
  | none => exact readsFrom_pure (by simp)
  | some first =>
    have hmore : Reads M source n true P (do let start ← mark; operator ","; onFailure start item) :=
      fun low => readsFrom_mark.andThen fun start hstart =>
        next_operator (by decide) ((hitem 0).any.onFailure hstart)
    refine (hmore.many hlimit low).andThen fun rest hrest => readsFrom_pure ?_
    simpa using ⟨hfirst first rfl, hrest⟩

end Rule

/-- What a node leaves open has the form that the grammar gives it. -/
def Node.Canonical : Node → Prop
  | .floatLit x => x.isFinite = true
  | .boolLit name value type => Node.boolLit name value type = .ofBool value
  | .call _ args _ => args.isSome = true
  | .arrayLit elements _ => elements.isSome = true
  | .member _ index _ => ∃ k : Nat, index = some ↑k
  | .unary op _ leading _ => op.IsSign ∧ leading = true ∨ op.IsUpdate ∧ leading = false
  | _ => True

/-- The names at a node begin with letters, its types are put together from such names, and no entity
stands in the place of a name yet. -/
def Node.Worded : Node → Prop
  | .varDecl type name _ _ _ _ => type.Spelled ∧ StartsWithLetter name
  | .funDecl name _ result params _ _ => StartsWithLetter name ∧ result.Spelled ∧
    ∀ p ∈ params.getD [], p.type.Spelled ∧ StartsWithLetter p.name
  | .forLoop name _ _ _ _ _ => StartsWithLetter name
  | .ident name => StartsWithLetter name
  | .var _ | .fn _ => False
  | _ => True

/-- The rule reads a node of some form, and the node has `M`. -/
abbrev ReadsNode (M : Node → Prop) (source : List Char) (n : Nat) (eats : Bool) (form : Node → Prop)
    (r : Rule Node) : Prop :=
  Reads M source n eats (fun e => form e ∧ M e) r

/-- The rules of a level read everything with fewer than `n` characters ahead, and may be repeated
often enough for that. What they give has `M`, if that goes over from children to nodes. -/
structure Rules.Sound (M : Node → Prop) (source : List Char) (n : Nat) (g : Rules) : Prop where
  closed : ∀ n : Node, n.Canonical → n.Worded → (∀ c ∈ n.children, M c) → M n
  limit : n ≤ g.limit
  type : Reads M source n true Ty.Spelled g.type
  unary : ReadsNode M source n true Surface.Expression g.unary
  power : ReadsNode M source n true Surface.Expression g.power
  expression : ReadsNode M source n true Surface.Expression g.expression
  statement : ReadsNode M source n true Surface.Statement g.statement

namespace Grammar

variable {g : Rules} (hg : g.Sound M source n) (hlimit : n < g.limit)

include hg hlimit

/-! ### Types -/

variable {ns : List Node}

omit hg hlimit in
theorem startsWithLetter_spelling (k : Keyword) : StartsWithLetter k.spelling := by
  have hall : ∀ k ∈ Keyword.all, k.spelling.toList.head?.any isLetter := by decide +kernel
  exact hall k (by cases k <;> decide)

theorem reads_type : Reads M source (n + 1) eats Ty.Spelled (type g) := by
  have helement : Reads M source (n + 1) true Ty.Spelled (elementType g) := by
    refine fun low => readsFrom_mark.andThen fun start hstart => ?_
    refine reads_anyKeyword.attempt_bind (fun k hk => readsFrom_pure ?_) ?_
    · exact startsWithLetter_spelling k
    refine eat_operator (by decide) (ReadsFrom.onFailure ?_ hstart)
    refine (hg.type 0).any.andThen fun key hkey => next_operator (by decide) ?_
    refine (hg.type 0).any.andThen fun value hvalue => next_operator (by decide) ?_
    exact readsFrom_pure ⟨hkey, hvalue⟩
  refine Reads.any fun low => (helement low).next fun t ht => Reads.extend (fun t ht low => ?_) hlimit ht low
  exact next_operator (by decide) (readsFrom_pure ht)

theorem reads_bindingType : Reads M source (n + 1) eats Ty.Spelled (bindingType g) :=
  Reads.any fun low => ReadsFrom.orElse (reads_type hg hlimit)
    ((reads_identifier low).next fun _ hname => readsFrom_pure hname.1)

/-! ### Expressions -/

open Surface (Expression Reference Statement)

omit hlimit in
theorem leaf {m : Node} (h : m.Canonical) (hwords : m.Worded) (hleaf : m.children = []) : M m :=
  hg.closed m h hwords (by simp [hleaf])

omit hlimit in
theorem reads_parenthesized :
    ReadsNode M source (n + 1) eats Expression (parenthesized g) := by
  refine fun low => eat_operator (by decide) ?_
  exact (hg.expression low).any.andThen fun e he => next_operator (by decide) (readsFrom_pure he)

omit hlimit in
theorem reads_builtin (k : Keyword) : Reads M source (n + 1) eats (fun e => (∃ arg, Expression arg
      ∧ e = .call (.ident k.spelling) (some [arg]) .nothing) ∧ M e) (builtin g k) := by
  refine fun low => next_keyword ((reads_parenthesized hg low).andThen fun arg harg => readsFrom_pure ?_)
  refine ⟨⟨arg, harg.1, rfl⟩, hg.closed _ rfl trivial (forall_mem_cons.mpr ⟨?_, ?_⟩)⟩
  · exact leaf hg trivial (startsWithLetter_spelling k) rfl
  · exact forall_mem_singleton.mpr harg.2

theorem reads_accessors : ReadsNode M source (n + 1) eats Reference (accessors g) := by
  have hindex : ∀ v, Reference v ∧ M v →
      ReadsNode M source (n + 1) true Reference (rewinding (indexAccess v)) := by
    refine fun v hv => ReadsFrom.rewinding (next_operator (by decide) ?_)
    refine (reads_ofScan (P := fun _ => True) (fun _ hs => hs.digits) (fun _ _ _ => trivial) 0).andThen
      fun index _ => ?_
    refine next_operator (by decide) (readsFrom_pure ⟨⟨hv.1, ⟨_, rfl⟩, rfl⟩, hg.closed _ ⟨_, rfl⟩ trivial ?_⟩)
    exact forall_mem_singleton.mpr hv.2
  have hkey : ∀ v, Reference v ∧ M v →
      ReadsNode M source (n + 1) true Reference (rewinding (keyAccess g v)) := by
    refine fun v hv => ReadsFrom.rewinding (next_operator (by decide) (next_keyword ?_))
    refine (reads_parenthesized hg 0).andThen fun key hkey => readsFrom_pure ⟨⟨hv.1, hkey.1, rfl⟩, ?_⟩
    exact hg.closed _ trivial trivial (forall_mem_two hv.2 hkey.2)
  refine fun low => (reads_identifier low).next fun name hname => ?_
  have hident : Reference (.ident name) ∧ M (.ident name) := ⟨hname, leaf hg trivial hname.letter rfl⟩
  refine Reads.extend (P := fun e => Reference e ∧ M e) (fun v hv low => ?_) hlimit hident low
  exact ReadsFrom.orElse (hindex v hv) (hkey v hv low)

theorem reads_reference : ReadsNode M source (n + 1) eats Reference (reference g) := by
  refine Reads.any fun low s hs hlow hn => ?_
  unfold Grammar.reference
  dsimp only
  split
  · next node stop hfound =>
    have hfits := hs.memory _ _ hfound
    exact ⟨hs.reset hfits.stop_in, (hfits.found node rfl).1, (hfits.found node rfl).2,
      hs.nodes _ _ node hfound rfl⟩
  · next stop hfound =>
    have hfits := hs.memory _ _ hfound
    exact ⟨hs.reset hfits.stop_in, hlow.trans hfits.le⟩
  · have haccess : Reads M source (n + 1) true _ (accessors g) := reads_accessors hg hlimit
    have hrun := haccess s.cursor.offset s hs le_rfl hn
    cases haccessors : accessors g s with
    | matched =>
      rw [haccessors] at hrun
      obtain ⟨hs', hlt, hnode⟩ := hrun
      refine ⟨hs'.remember ⟨hs'.cursor_in, Nat.le_of_succ_le hlt, ?_⟩ ?_, hlt, hnode⟩
      · intro n' hn'
        exact ⟨hlt, Option.some.inj hn' ▸ hnode.1⟩
      · intro n' hn'
        exact Option.some.inj hn' ▸ hnode.2
    | failed s' =>
      rw [haccessors] at hrun
      exact ⟨(hrun.1.reset hs.cursor_in).remember ⟨hs.cursor_in, le_rfl, by simp⟩ (by simp), hlow⟩
    | aborted =>
      rw [haccessors] at hrun
      exact hrun

omit hlimit in
theorem reads_arguments :
    Reads M source n false (fun ns => Surface.Expressions ns ∧ ∀ n ∈ ns, M n) (arguments g) := by
  refine (hg.expression.separated hg.limit).imp fun ns h => ⟨?_, fun n hn => (h n hn).2⟩
  exact Surface.expressions_iff.mpr fun n hn => (h n hn).1

omit hlimit in
theorem reads_argumentList : Reads M source (n + 1) eats
    (fun ns => Surface.Expressions ns ∧ ∀ n ∈ ns, M n) (argumentList g) := by
  refine fun low => eat_operator (by decide) ((reads_arguments hg low).andThen fun args hargs => ?_)
  exact next_operator (by decide) (readsFrom_pure hargs)

omit hlimit in
theorem have_call {callee : Node} {args : List Node} (hcallee : M callee) (hargs : ∀ n ∈ args, M n) :
    M (.call callee (some args) .nothing) :=
  hg.closed _ rfl trivial (forall_mem_cons.mpr ⟨hcallee, hargs⟩)

theorem reads_callOrReference :
    ReadsNode M source (n + 1) eats Expression (callOrReference g) := by
  refine fun low => (reads_reference hg hlimit low).next fun v hv => ?_
  refine ((reads_argumentList hg 0).rewinding.attempt low).andThen fun args hargs => ?_
  cases args with
  | none => exact readsFrom_pure ⟨hv.1.expression, hv.2⟩
  | some args =>
    have hall := hargs args rfl
    exact readsFrom_pure ⟨⟨.inl hv.1, hall.1, rfl⟩, have_call hg hv.2 hall.2⟩

omit hlimit in
theorem reads_keyValue : Reads M source n true
    (fun e => (Expression e.key ∧ Expression e.value) ∧ ∀ n ∈ Entry.children e, M n) (keyValue g) := by
  refine ReadsFrom.rewinding ((hg.expression 0).next fun key hkey => next_operator (by decide) ?_)
  refine (hg.expression 0).any.andThen fun value hvalue => readsFrom_pure ⟨⟨hkey.1, hvalue.1⟩, ?_⟩
  exact forall_mem_two hkey.2 hvalue.2

omit hlimit in
theorem reads_number {k : Nat} : ReadsNode M source k eats Expression number := by
  refine fun low => (reads_ofScan (P := fun _ => True) (fun _ hs => hs.number) (fun _ _ _ => trivial)
    low).next fun t _ => ?_
  obtain ⟨token, lexeme⟩ := t
  dsimp only
  split
  · exact readsFrom_pure ⟨Int.natCast_nonneg _, leaf hg trivial trivial rfl⟩
  · split
    · next x hx => exact readsFrom_pure ⟨trivial, leaf hg (Binary64.isFinite_of_ofQuotient? hx) trivial rfl⟩
    · exact readsFrom_abort (by simp)

omit hlimit in
theorem reads_stringLiteral {k : Nat} : ReadsNode M source k eats Expression stringLiteral :=
  fun low => (reads_ofScan (P := fun _ => True) (fun _ hs => hs.string) (fun _ _ _ => trivial)
    low).next fun _ _ => readsFrom_pure ⟨trivial, leaf hg trivial trivial rfl⟩

omit hlimit in
theorem reads_boolean {k : Nat} : ReadsNode M source k eats Expression boolean := by
  have hbool : ∀ word value,
      ReadsNode M source k eats Expression (do keyword word; return .ofBool value) :=
    fun word value low => next_keyword (readsFrom_pure ⟨rfl, leaf hg rfl trivial rfl⟩)
  exact fun low => ReadsFrom.orElse (hbool .sweet true) (hbool .sour false low)

theorem reads_primary : ReadsNode M source (n + 1) eats Expression (primary g) := by
  have hspecies : ReadsNode M source (n + 1) eats Expression (builtin g .species) := by
    refine (reads_builtin hg .species).imp ?_
    rintro e ⟨⟨arg, harg, rfl⟩, he⟩
    exact ⟨⟨.inr rfl, ⟨harg, trivial⟩, rfl⟩, he⟩
  have harray : ReadsNode M source (n + 1) eats Expression (arrayLiteral g) := by
    refine fun low => eat_operator (by decide) ((reads_arguments hg low).andThen fun elements helements => ?_)
    exact next_operator (by decide) (readsFrom_pure ⟨⟨helements.1, rfl⟩, hg.closed _ rfl trivial helements.2⟩)
  have hmap : ReadsNode M source (n + 1) eats Expression (mapLiteral g) := by
    refine fun low => eat_operator (by decide) ?_
    refine ((reads_keyValue hg).separated hg.limit low).andThen fun entries hentries => ?_
    refine next_operator (by decide) (readsFrom_pure ⟨⟨?_, rfl⟩, hg.closed _ trivial trivial fun c hc => ?_⟩)
    · exact Surface.entries_iff.mpr fun e he => (hentries e he).1
    · obtain ⟨e, he, hc⟩ := List.mem_flatMap.mp hc
      exact (hentries e he).2 c hc
  refine Reads.choice fun r hr => ?_
  simp only [List.mem_cons, List.not_mem_nil, or_false] at hr
  rcases hr with rfl | rfl | rfl | rfl | rfl | rfl | rfl | rfl
  · exact hspecies 0
  · exact reads_callOrReference hg hlimit 0
  · exact reads_parenthesized hg 0
  · exact harray 0
  · exact hmap 0
  · exact reads_number hg 0
  · exact reads_stringLiteral hg 0
  · exact reads_boolean hg 0

omit hlimit in
/-- A sign with its operand. The sign may stand behind blanks; if its operand is missing, the rule goes
back to where it began. -/
theorem readsBehind_signed {op : UnaryOp} (hop : op.IsSign) {start : Cursor}
    (hstart : start.In source) (hn : start.rest.length < n + 1) :
    ReadsBehind M source start true (fun e => Expression e ∧ M e) (signed g start op) := by
  have hspelling : op.spelling ≠ "" := by
    cases op <;> first | exact absurd hop id | (simp only [UnaryOp.spelling]; decide)
  refine ReadsFrom.behind (n := n + 1) ?_ hstart hn
  refine eat_operator hspelling (ReadsFrom.onFailure ?_ ⟨hstart, le_rfl⟩)
  refine (hg.unary 0).any.andThen fun e he => readsFrom_pure ⟨⟨hop, he.1, rfl, rfl⟩, ?_⟩
  exact hg.closed _ (.inl ⟨hop, rfl⟩) trivial (forall_mem_singleton.mpr he.2)

theorem reads_unary : ReadsNode M source (n + 1) eats Expression (unary g) := by
  refine Reads.any (Reads.mark_bind fun start hstart hn => ?_)
  refine (readsBehind_signed hg (show UnaryOp.neg.IsSign from trivial) hstart hn).orElse ?_
  refine (readsBehind_signed hg (show UnaryOp.not.IsSign from trivial) hstart hn).orElse ?_
  exact (reads_primary hg hlimit start.offset).behind hstart hn

omit hlimit in
theorem have_binary {left right : Node} (op : BinaryOp) (hleft : M left) (hright : M right) :
    M (.binary left op right .nothing) :=
  hg.closed _ trivial trivial (forall_mem_two hleft hright)

theorem reads_power : ReadsNode M source (n + 1) eats Expression (power g) := by
  have hexponent : ReadsNode M source (n + 1) true Expression
      (rewinding (do operator BinaryOp.pow.spelling; g.power)) :=
    ReadsFrom.rewinding (eat_operator (by decide) (hg.power 0).any)
  refine fun low => (reads_unary hg hlimit low).next fun base hbase => ?_
  refine (hexponent.attempt low).andThen fun exponent hexponent => ?_
  cases exponent with
  | none => exact readsFrom_pure hbase
  | some exponent =>
    obtain ⟨hform, hright⟩ := hexponent exponent rfl
    exact readsFrom_pure ⟨⟨trivial, hbase.1, hform, rfl⟩, have_binary hg _ hbase.2 hright⟩

theorem reads_leftChain {operand : Rule Node} (hops : ∀ op ∈ ops, op.IsInfix)
    (hoperand : ReadsNode M source (n + 1) true Expression operand) :
    ReadsNode M source (n + 1) eats Expression (leftChain g ops operand) := by
  refine fun low => (hoperand low).next fun first hfirst => ?_
  refine Reads.extend (P := fun e => Expression e ∧ M e) (fun left hleft low => ?_) hlimit hfirst low
  refine readsFrom_mark.andThen fun start hstart => ?_
  refine (reads_anyOperator hops low).next fun op hop => ReadsFrom.onFailure ?_ hstart
  refine (hoperand 0).any.andThen fun right hright => readsFrom_pure ?_
  exact ⟨⟨hops op hop, hleft.1, hright.1, rfl⟩, have_binary hg op hleft.2 hright.2⟩

theorem reads_multiplicative :
    ReadsNode M source (n + 1) eats Expression (multiplicative g) :=
  reads_leftChain hg hlimit (by simp [BinaryOp.IsInfix]) (reads_power hg hlimit)

theorem reads_additive : ReadsNode M source (n + 1) eats Expression (additive g) :=
  reads_leftChain hg hlimit (by simp [BinaryOp.IsInfix]) (reads_multiplicative hg hlimit)

theorem reads_expression : ReadsNode M source (n + 1) eats Expression (expression g) :=
  reads_leftChain hg hlimit (by simp [BinaryOp.IsInfix])
    (reads_leftChain hg hlimit (by simp [BinaryOp.IsInfix]) (reads_additive hg hlimit))

/-! ### Statements -/

omit hlimit in
theorem reads_statements :
    Reads M source n false (fun ns => Surface.Statements ns ∧ ∀ n ∈ ns, M n) (statements g) := by
  refine (hg.statement.many hg.limit).imp fun ns h => ⟨?_, fun n hn => (h n hn).2⟩
  exact Surface.statements_iff.mpr fun n hn => (h n hn).1

omit hg hlimit in
theorem optional_presentIfAny (h : Surface.Statements ns) : Surface.Optional (presentIfAny ns) := by
  cases ns with
  | nil => trivial
  | cons => exact h

omit hg hlimit in
theorem getD_presentIfAny (ns : List Node) : (presentIfAny ns).getD [] = ns := by
  cases ns <;> rfl

omit hg hlimit in
theorem body_of_ne_nil (h : Surface.Statements ns) (hne : ns ≠ []) : Surface.Body (some ns) := by
  cases ns with
  | nil => exact absurd rfl hne
  | cons => exact h

theorem reads_variableDeclaration :
    ReadsNode M source (n + 1) eats Statement (variableDeclaration g) := by
  have hinit : ReadsNode M source (n + 1) true Expression
      (rewinding (do operator "="; expression g)) :=
    ReadsFrom.rewinding (next_operator (by decide) (reads_expression hg hlimit 0))
  refine fun low => ((reads_keyword .const).attempt low).andThen fun isConst _ => ?_
  refine ((reads_keyword .static).attempt low).andThen fun isStatic _ => ?_
  refine (reads_type hg hlimit low).next fun type htype => ?_
  refine (reads_identifier low).andThen fun name hname => ?_
  refine (hinit.attempt low).andThen fun init hinit => readsFrom_pure ?_
  have hvalue : (init.getD .missing = .missing ∨ Expression (init.getD .missing)) ∧
      M (init.getD .missing) := by
    cases init with
    | none => exact ⟨.inl rfl, leaf hg trivial trivial rfl⟩
    | some init => exact ⟨.inr (hinit init rfl).1, (hinit init rfl).2⟩
  refine ⟨⟨htype, hname, hvalue.1, rfl⟩, hg.closed _ trivial ⟨htype, hname.letter⟩ ?_⟩
  exact forall_mem_singleton.mpr hvalue.2

theorem reads_assignment : ReadsNode M source (n + 1) eats Statement (assignment g) := by
  refine fun low => (reads_reference hg hlimit low).next fun target htarget => next_operator (by decide) ?_
  refine (reads_expression hg hlimit low).andThen fun e he => readsFrom_pure ⟨⟨htarget.1, he.1⟩, ?_⟩
  exact hg.closed _ trivial trivial (forall_mem_two htarget.2 he.2)

omit hg hlimit in
theorem have_arms {arms : List (Arm Node)} (h : ∀ a ∈ arms, ∀ n ∈ a.children, M n) :
    ∀ n ∈ arms.flatMap Arm.children, M n := by
  intro n hn
  obtain ⟨a, ha, hn⟩ := List.mem_flatMap.mp hn
  exact h a ha n hn

theorem reads_switchCase : Reads M source (n + 1) true
    (fun a => (Expression a.guard ∧ Surface.Optional a.body) ∧ ∀ n ∈ a.children, M n) (switchCase g) := by
  refine fun low => readsFrom_mark.andThen fun start hstart => eat_keyword ?_
  refine (((reads_expression hg hlimit).less 0).onFailure hstart).andThen fun guard hguard => ?_
  refine (reads_statements hg low).andThen fun body hbody => readsFrom_pure ?_
  refine ⟨⟨hguard.1, optional_presentIfAny hbody.1⟩, forall_mem_cons.mpr ⟨hguard.2, ?_⟩⟩
  rw [getD_presentIfAny]
  exact hbody.2

theorem reads_switch : ReadsNode M source (n + 1) eats Statement (switch g) := by
  have hdefault : Reads M source n true (fun ns => Surface.Statements ns ∧ ∀ n ∈ ns, M n)
      (do keyword .default; statements g) := fun low => next_keyword (reads_statements hg low)
  refine fun low => eat_keyword ?_
  refine next_operator (by decide) ?_
  refine ((reads_reference hg hlimit).less low).andThen fun scrutinee hscrutinee => ?_
  refine next_operator (by decide) (next_keyword ?_)
  refine ((reads_switchCase hg hlimit).less.many hg.limit low).andThen fun cases hcases => ?_
  dsimp only
  split
  · exact readsFrom_fail
  · next hempty =>
    refine (hdefault.attempt low).andThen fun default hdefault => next_keyword (readsFrom_pure ?_)
    have hlast : Surface.Default default ∧ ∀ n ∈ default.getD [], M n := by
      cases default with
      | none => exact ⟨trivial, List.forall_mem_nil _⟩
      | some default => exact hdefault default rfl
    refine ⟨⟨hscrutinee.1, by simpa using hempty, ?_, hlast.1⟩, ?_⟩
    · exact Surface.clauses_iff.mpr fun a ha => (hcases a ha).1
    · refine hg.closed _ trivial trivial (forall_mem_cons.mpr ⟨hscrutinee.2, ?_⟩)
      exact List.forall_mem_append.mpr ⟨have_arms fun a ha => (hcases a ha).2, hlast.2⟩

theorem reads_call : ReadsNode M source (n + 1) eats Statement (call g) := by
  refine fun low => (reads_reference hg hlimit low).next fun callee hcallee => ?_
  refine (reads_argumentList hg low).andThen fun args hargs => readsFrom_pure ?_
  exact ⟨⟨.inl hcallee.1, hargs.1, rfl⟩, have_call hg hcallee.2 hargs.2⟩

theorem reads_parameter : Reads M source n true Surface.IsParameter (parameter g) := by
  refine ReadsFrom.rewinding (((reads_bindingType hg hlimit).less 0).next fun type htype => ?_)
  exact (reads_identifier 0).andThen fun name hname => readsFrom_pure ⟨htype, hname, rfl⟩

theorem reads_parameters :
    Reads M source n false (fun ps => ∀ p ∈ ps, Surface.IsParameter p) (parameters g) :=
  (reads_parameter hg hlimit).separated hg.limit

omit hlimit in
theorem reads_block (mayBeEmpty : Bool) : Reads M source (n + 1) eats
    (fun ns => Surface.Statements ns ∧ (mayBeEmpty = false → ns ≠ []) ∧ ∀ n ∈ ns, M n)
      (block g mayBeEmpty) := by
  refine fun low => eat_keyword ?_
  refine (reads_statements hg low).andThen fun body hbody => ?_
  dsimp only
  split
  · exact readsFrom_fail
  · next hempty =>
    refine next_keyword (readsFrom_pure ⟨hbody.1, ?_, hbody.2⟩)
    rintro rfl
    simpa using hempty

theorem reads_functionDeclaration :
    ReadsNode M source (n + 1) eats Statement (functionDeclaration g) := by
  have hresult : Reads M source n false Ty.Spelled
      ((do keyword .voidType; return .named Keyword.voidType.spelling) <|> bindingType g) :=
    fun low => ReadsFrom.orElse
      (fun low => next_keyword (readsFrom_pure (startsWithLetter_spelling _)))
      ((reads_bindingType hg hlimit).less low)
  refine fun low => eat_keyword ?_
  refine ((reads_keyword .static).attempt low).andThen fun isStatic _ => ?_
  refine (hresult low).andThen fun result hresult => ?_
  refine (reads_identifier low).andThen fun name hname => next_operator (by decide) ?_
  refine (reads_parameters hg hlimit low).andThen fun params hparams => next_operator (by decide) ?_
  refine ((reads_block hg true).less low).andThen fun body hbody => readsFrom_pure ?_
  refine ⟨⟨hresult, hname, ⟨params, rfl, hparams⟩, hbody.1, rfl⟩, hg.closed _ trivial ?_ hbody.2.2⟩
  exact ⟨hname.letter, hresult, fun p hp => ⟨(hparams p hp).1, (hparams p hp).2.1.letter⟩⟩

omit hlimit in
theorem reads_guardedBlock : Reads M source (n + 1) eats
    (fun a => (Expression a.guard ∧ Surface.Body a.body) ∧ ∀ n ∈ a.children, M n) (guardedBlock g) := by
  refine fun low => (reads_parenthesized hg low).next fun guard hguard => ?_
  refine (reads_block hg false low).andThen fun body hbody => readsFrom_pure ?_
  refine ⟨⟨hguard.1, body_of_ne_nil hbody.1 (hbody.2.1 rfl)⟩, ?_⟩
  exact forall_mem_cons.mpr ⟨hguard.2, hbody.2.2⟩

theorem reads_ifElse : ReadsNode M source (n + 1) eats Statement (ifElse g) := by
  have hother : Reads M source (n + 1) true
      (fun a => (Expression a.guard ∧ Surface.Body a.body) ∧ ∀ n ∈ a.children, M n)
      (do let start ← mark; keyword .elseIf; onFailure start (guardedBlock g)) :=
    fun low => readsFrom_mark.andThen fun start hstart =>
      (reads_keyword .elseIf low).next fun _ _ => (reads_guardedBlock hg 0).onFailure hstart
  refine fun low => next_keyword ?_
  refine (reads_guardedBlock hg low).andThen fun first hfirst => ?_
  refine (hother.many hlimit low).andThen fun others hothers => ?_
  have hchain : ∀ a ∈ first :: others, (Expression a.guard ∧ Surface.Body a.body) ∧ ∀ n ∈ a.children, M n :=
    forall_mem_cons.mpr ⟨hfirst, hothers⟩
  refine ReadsFrom.mark_attempt_bind (fun start hstart hn => ReadsFrom.behind
    ((reads_keyword .otherwise start.offset).next fun _ _ =>
      (reads_block hg false 0).onFailure ⟨hstart, le_rfl⟩) hstart hn) fun start otherwise hotherwise => ?_
  have hlast : Surface.Optional otherwise ∧ ∀ n ∈ otherwise.getD [], M n := by
    cases otherwise with
    | none => exact ⟨trivial, List.forall_mem_nil _⟩
    | some otherwise =>
      obtain ⟨hstatements, hne, hall⟩ := hotherwise otherwise rfl
      cases otherwise with
      | nil => exact absurd rfl (hne rfl)
      | cons => exact ⟨hstatements, hall⟩
  refine readsFrom_pure ⟨⟨by simp, Surface.branches_iff.mpr fun a ha => (hchain a ha).1, hlast.1⟩, ?_⟩
  refine hg.closed _ trivial trivial (List.forall_mem_append.mpr ⟨?_, hlast.2⟩)
  exact have_arms fun a ha => (hchain a ha).2

omit hlimit in
theorem reads_whileLoop : ReadsNode M source (n + 1) eats Statement (whileLoop g) := by
  refine fun low => next_keyword ?_
  refine (reads_guardedBlock hg low).andThen fun arm harm => readsFrom_pure ⟨harm.1, ?_⟩
  exact hg.closed _ trivial trivial harm.2

theorem reads_update : ReadsNode M source (n + 1) eats Surface.Update (update g) := by
  have hcompound : ∀ name, IsName name → ∀ op : BinaryOp, op.IsUpdate →
      ReadsNode M source (n + 1) false Surface.Update (compound g (.ident name) op) := by
    intro name hname op hop
    have hspelling : op.spelling ≠ "" := by
      cases op <;> first | exact absurd hop id | (simp only [BinaryOp.spelling]; decide)
    refine ReadsFrom.rewinding (next_operator hspelling ?_)
    refine (reads_additive hg hlimit 0).andThen fun e he => readsFrom_pure ⟨⟨hname, hop, he.1, rfl⟩, ?_⟩
    exact have_binary hg op (leaf hg trivial hname.letter rfl) he.2
  have hcrement : ∀ name, IsName name → ∀ op : UnaryOp, op.IsUpdate →
      ReadsNode M source (n + 1) false Surface.Update (crement (.ident name) op) := by
    intro name hname op hop
    have hspelling : op.spelling ≠ "" := by
      cases op <;> first | exact absurd hop id | (simp only [UnaryOp.spelling]; decide)
    refine fun low => next_operator hspelling (readsFrom_pure ⟨⟨hname, hop, by simp, rfl⟩, ?_⟩)
    exact hg.closed _ (.inr ⟨hop, rfl⟩) trivial (forall_mem_singleton.mpr (leaf hg trivial hname.letter rfl))
  refine fun low => (reads_identifier low).next fun name hname => ?_
  refine ReadsFrom.orElse (hcompound name hname .addAssign trivial) ?_
  refine ReadsFrom.orElse (hcompound name hname .subAssign trivial) ?_
  refine ReadsFrom.orElse (hcrement name hname .increment trivial) ?_
  exact hcrement name hname .decrement trivial low

theorem reads_forLoop : ReadsNode M source (n + 1) eats Statement (forLoop g) := by
  refine fun low => next_keyword ?_
  refine next_operator (by decide) (next_keyword ?_)
  refine (reads_identifier low).andThen fun name hname => next_operator (by decide) ?_
  refine (reads_expression hg hlimit low).andThen fun init hinit => next_operator (by decide) ?_
  refine (reads_expression hg hlimit low).andThen fun condition hcondition => next_operator (by decide) ?_
  refine (reads_update hg hlimit low).andThen fun step hstep => next_operator (by decide) ?_
  refine (reads_block hg false low).andThen fun body hbody => readsFrom_pure ⟨?_, ?_⟩
  · exact ⟨hname, hinit.1, hcondition.1, hstep.1, body_of_ne_nil hbody.1 (hbody.2.1 rfl), rfl⟩
  · refine hg.closed _ trivial hname.letter ?_
    simp only [Node.children, forall_mem_cons]
    exact ⟨hinit.2, hcondition.2, hstep.2, hbody.2.2⟩

theorem reads_classDeclaration :
    ReadsNode M source (n + 1) eats Statement (classDeclaration g) := by
  refine fun low => eat_keyword ?_
  refine (reads_identifier low).andThen fun name hname => ?_
  refine ReadsFrom.mark_attempt_bind (fun start hstart hn => ReadsFrom.behind
    ((reads_keyword .extending start.offset).next fun _ _ =>
      (reads_identifier 0).onFailure ⟨hstart, le_rfl⟩) hstart hn) fun start parent hparent => ?_
  refine next_keyword ?_
  refine next_keyword ?_
  refine next_operator (by decide) ?_
  refine (reads_parameters hg hlimit low).andThen fun params hparams => next_operator (by decide) ?_
  refine ((reads_block hg false).less low).andThen fun plant hplant => ?_
  refine (reads_statements hg low).andThen fun body hbody => next_keyword (readsFrom_pure ⟨?_, ?_⟩)
  · refine ⟨hname, ?_, ⟨params, rfl, hparams⟩, body_of_ne_nil hplant.1 (hplant.2.1 rfl),
      optional_presentIfAny hbody.1⟩
    cases parent with
    | none => exact .inl rfl
    | some parent => exact .inr (hparent parent rfl)
  · refine hg.closed _ trivial trivial (List.forall_mem_append.mpr ⟨hplant.2.2, ?_⟩)
    rw [getD_presentIfAny]
    exact hbody.2

theorem reads_giveBack : ReadsNode M source (n + 1) eats Statement (giveBack g) := by
  refine fun low => next_keyword ?_
  refine ((reads_expression hg hlimit 0).rewinding.attempt low).andThen fun e he => ?_
  cases e with
  | none => exact readsFrom_pure ⟨trivial, leaf hg trivial trivial rfl⟩
  | some e =>
    obtain ⟨hform, hvalue⟩ := he e rfl
    exact readsFrom_pure ⟨hform, hg.closed _ trivial trivial (forall_mem_singleton.mpr hvalue)⟩

omit hg hlimit in
theorem statement_of_update {n : Node} (h : Surface.Update n) : Statement n := by
  cases n with
  | binary | unary => exact .inl h
  | _ => exact absurd h (by simp [Surface.Update])

theorem reads_statement : ReadsNode M source (n + 1) eats Statement (statement g) := by
  have hbuiltin : ∀ k, k = .species ∨ k = .pour →
      ReadsNode M source (n + 1) eats Statement (builtin g k) := by
    intro k hk
    refine (reads_builtin hg k).imp ?_
    rintro e ⟨⟨arg, harg, rfl⟩, he⟩
    refine ⟨⟨.inr ?_, ⟨harg, trivial⟩, rfl⟩, he⟩
    rcases hk with rfl | rfl
    · exact .inl rfl
    · exact .inr rfl
  refine Reads.choice fun r hr => ?_
  simp only [List.mem_cons, List.not_mem_nil, or_false] at hr
  rcases hr with rfl | rfl | rfl | rfl | rfl | rfl | rfl | rfl | rfl | rfl | rfl | rfl | rfl | rfl | rfl | rfl
  · exact reads_variableDeclaration hg hlimit 0
  · exact reads_assignment hg hlimit 0
  · exact reads_switch hg hlimit 0
  · exact reads_call hg hlimit 0
  · exact reads_functionDeclaration hg hlimit 0
  · exact reads_ifElse hg hlimit 0
  · exact reads_whileLoop hg 0
  · exact reads_forLoop hg hlimit 0
  · exact reads_classDeclaration hg hlimit 0
  · exact hbuiltin .pour (.inr rfl) 0
  · exact hbuiltin .species (.inl rfl) 0
  · exact reads_giveBack hg hlimit 0
  · exact (reads_update hg hlimit 0).imp fun _ h => ⟨statement_of_update h.1, h.2⟩
  · exact next_keyword (readsFrom_pure ⟨trivial, leaf hg trivial trivial rfl⟩)
  · exact next_keyword (readsFrom_pure ⟨trivial, leaf hg trivial trivial rfl⟩)
  · exact (reads_expression hg hlimit 0).imp fun _ h => ⟨h.1.statement, h.2⟩

/-! ### Programs -/

omit hg hlimit in
theorem reads_importing :
    Reads M source n true (fun i => IsName i.name ∧ IsName i.source) importing := by
  refine ReadsFrom.rewinding (next_keyword ?_)
  refine (reads_identifier 0).andThen fun name hname => next_keyword ?_
  exact (reads_identifier 0).andThen fun origin horigin => readsFrom_pure ⟨hname, horigin⟩

omit hlimit in
theorem reads_program : Reads M source n false (fun p => p.Surface ∧ M p.node) (program g) := by
  refine fun low => (reads_importing.many hg.limit low).andThen fun imports himports => ?_
  refine (reads_statements hg low).andThen fun body hbody => ?_
  refine (reads_atEnd low).andThen fun _ _ => readsFrom_pure ⟨⟨himports, optional_presentIfAny hbody.1⟩, ?_⟩
  refine hg.closed _ trivial trivial (show ∀ n ∈ (presentIfAny body).getD [], M n from ?_)
  rw [getD_presentIfAny]
  exact hbody.2

omit hg hlimit in
theorem limit_rules (limit levels : Nat) : (rules limit levels).limit = limit := by
  induction levels with
  | zero => rfl
  | succ _ ih => exact ih

/-- One level more lets the rules read one character more. -/
theorem sound_around : (around g).Sound M source (n + 1) :=
  ⟨hg.closed, hlimit, reads_type hg hlimit, reads_unary hg hlimit, reads_power hg hlimit,
    reads_expression hg hlimit, reads_statement hg hlimit⟩

omit hg hlimit in
/-- With enough levels, the rules read whatever has fewer characters ahead than there are levels. -/
theorem sound_rules_of (hM : ∀ n : Node, n.Canonical → n.Worded → (∀ c ∈ n.children, M c) → M n)
    {limit levels : Nat} (h : levels ≤ limit) : (rules limit levels).Sound M source levels := by
  induction levels with
  | zero => exact ⟨hM, Nat.zero_le _, .zero, .zero, .zero, .zero, .zero⟩
  | succ _ ih =>
    refine sound_around (ih (Nat.le_of_succ_le h)) ?_
    rw [limit_rules]
    exact h

omit hg hlimit in
theorem sound_rules {limit levels : Nat} (h : levels ≤ limit) :
    (rules limit levels).Sound (fun _ => True) source levels :=
  sound_rules_of (fun _ _ _ _ => trivial) h

end Grammar

namespace Program

/-- A source is a program of the surface language, breaks the grammar, or has a number that is out
of range. -/
theorem parse_cases (filename source : String) :
    (∃ p, Program.parse filename source = .ok p ∧ p.Surface ∧ p.node.AllParts fun n => n.Canonical ∧ n.Worded) ∨
      (∃ e, Program.parse filename source = .error (.syntactic e)) ∨
      ∃ digits, Program.parse filename source = .error (.aborted (.outOfRange digits)) := by
  have hkeeps : ParseState.Keeps (·.AllParts fun n => n.Canonical ∧ n.Worded) source.toList
      ⟨Scanner.ofSource filename source, some {}⟩ := by
    refine ⟨⟨⟨rfl, Nat.zero_le _, rfl⟩, fun offset r hr => ?_⟩, fun offset r n hr => ?_⟩ <;>
      simp [ParseState.remembered?] at hr
  have hends := Grammar.reads_program (Grammar.sound_rules_of (fun n hn hwords => .of_children ⟨hn, hwords⟩)
    le_rfl) 0 _ hkeeps (Nat.zero_le _) (show source.toList.length < source.toList.length + 2 by omega)
  simp only [Program.parse, Grammar.parseFrom]
  change Ends _ source.toList 0 false _ _ (Grammar.program (Grammar.rules
    (source.toList.length + 2) (source.toList.length + 2)) _) at hends
  simp only [Scanner.ofSource] at hends ⊢
  split
  · next p s heq =>
    rw [heq] at hends
    exact .inl ⟨p, rfl, hends.2.2⟩
  · exact .inr (.inl ⟨_, rfl⟩)
  · next reason heq =>
    rw [heq] at hends
    cases reason with
    | outOfRange digits => exact .inr (.inr ⟨digits, rfl⟩)
    | tooDeep => exact absurd rfl hends

theorem forms_of_parse {filename source : String} {p : Program} (h : Program.parse filename source = .ok p) :
    p.Surface ∧ p.node.AllParts fun n => n.Canonical ∧ n.Worded := by
  rcases parse_cases filename source with ⟨p', hp', hforms⟩ | ⟨e, he⟩ | ⟨digits, he⟩
  · rw [h] at hp'
    exact Except.ok.inj hp' ▸ hforms
  · rw [h] at he
    cases he
  · rw [h] at he
    cases he

theorem surface_of_parse {filename source : String} {p : Program} (h : Program.parse filename source = .ok p) :
    p.Surface :=
  (forms_of_parse h).1

theorem canonical_of_parse {filename source : String} {p : Program}
    (h : Program.parse filename source = .ok p) : p.node.AllParts Node.Canonical :=
  fun m hm => ((forms_of_parse h).2 m hm).1

theorem worded_of_parse {filename source : String} {p : Program} (h : Program.parse filename source = .ok p) :
    p.node.AllParts Node.Worded :=
  fun m hm => ((forms_of_parse h).2 m hm).2

/-- Every tree that is read from a source has the shape of the grammar: expressions stand only where it has
expressions, variables are changed in place only by whole statements and by the steps of loops, targets and
callees are names with accessors, numbers are not negative, the blocks that need a statement have one, and
no name is a reserved word. -/
theorem parse_shape {filename source : String} {p : Program} (h : Program.parse filename source = .ok p) :
    p.Surface :=
  surface_of_parse h

/-- A program with accessors, updates, and blocks of many kinds. -/
def garden : String :=
  "receive lemons from tree
  Limon Lemon branches Fruit BEGIN JUICING
    plant(slice size) BEGIN JUICING pour(-size) END JUICING
  END JUICING
  forEachLemon (slice i = 0; i < 2; i += 1) BEGIN JUICING a.key(1)[0] = i nextLemon END JUICING
  Pick (a[1]) BEGIN JUICING lemonCase 2 chop citrusLimon species(a) END JUICING
  Squeeze the lemon if (!sweet) BEGIN JUICING n++ END JUICING
  Toss the lemon and do BEGIN JUICING n = n ^ 2 END JUICING"

set_option maxRecDepth 2000 in
theorem parse_shape_garden : ∃ p, Program.parse "" garden = .ok p ∧ p.Surface := by
  have hok : (Program.parse "" garden).isOk = true := by
    -- The characters are taken out of the string first, since the kernel is slow to decode one.
    rw [Program.parse, Scanner.ofSource, garden, String.toList_ofList]
    decide +kernel
  cases hp : Program.parse "" garden with
  | ok p => exact ⟨p, rfl, parse_shape hp⟩
  | error e =>
    rw [hp] at hok
    cases hok

end Program

end LemonScript
