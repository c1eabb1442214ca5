import LemonScript.Proofs.JavaScript.Reading
/-!
# A written program read back

Every line of a written program can be read, and what the lines say can be told from the tree: which
blocks are opened and closed, where the jumps stand, and which entities occur.
-/

namespace LemonScript

open Mention (ofParameters ofVariable)
open List (append_assoc flatMap_singleton map_append)

namespace JavaScript

open JavaScript.Token (word mark)

/-! ### What a program says -/

variable (table : List Int)

def occurrence (m : Mention) : Occurrence := ⟨mentionText table m, m.declares⟩

variable {n guard : Node} {v : Variable}
variable {opening : String} {us : List Token} {init condition : Node}

mutual

def statementReadings : Node → Script Reading
  | .funDecl _ _ _ params body entity =>
    .braced ⟨.opens none .function, ((entity.toList.flatMap fun f => (Mention.ofFunction true f).own) ++
        ofParameters (params.getD [])).map (occurrence table)⟩ ⟨.closes, []⟩
      (.function (blockReadings body))
  | .ifElse cases otherwise =>
    .append (.append (ifReadings (.opens none .plain) cases) (elseReadings otherwise)) (.lines [⟨.closes, []⟩])
  | .whileLoop condition body =>
    .loop (fun frame => ⟨.opens frame.label .loop, condition.mentions.map (occurrence table)⟩) ⟨.closes, []⟩
      (blockReadings body)
  | .forLoop _ init condition step body entity =>
    .loop (fun frame => ⟨.opens frame.label .loop,
        ((entity.toList.flatMap fun v => (ofVariable true v).own) ++
          (init.mentions ++ (condition.mentions ++ step.mentions))).map (occurrence table)⟩) ⟨.closes, []⟩
      (blockReadings body)
  | .switch scrutinee cases default =>
    .braced ⟨.opens none .switch, scrutinee.mentions.map (occurrence table)⟩ ⟨.closes, []⟩
      (.switch (.append (caseReadings cases) (defaultReadings default)))
  | .chop => .chop fun label => ⟨.leaves (label.map labelLetters), []⟩
  | .next => .lines [⟨.continues, []⟩]
  | n => .lines [⟨.plain, n.mentions.map (occurrence table)⟩]

def statementsReadings : List Node → Script Reading
  | [] => .lines []
  | n :: ns => .append (statementReadings n) (statementsReadings ns)

def blockReadings : Option (List Node) → Script Reading
  | none => .lines []
  | some ns => statementsReadings ns

def ifReadings (row : Row) : List (Arm Node) → Script Reading
  | [] => .lines []
  | ⟨guard, body⟩ :: rest =>
    .append (.lines [⟨row, guard.mentions.map (occurrence table)⟩])
      (.append (blockReadings body) (ifReadings .reopens rest))

def elseReadings : Option (List Node) → Script Reading
  | none => .lines []
  | some [] => .lines []
  | some (n :: ns) =>
    .append (.lines [⟨.reopens, []⟩]) (.append (statementReadings n) (statementsReadings ns))

def caseReadings : List (Arm Node) → Script Reading
  | [] => .lines []
  | ⟨guard, body⟩ :: rest =>
    .append (.lines [⟨.plain, guard.mentions.map (occurrence table)⟩])
      (.append (blockReadings body) (.append (.lines [⟨.leaves none, []⟩]) (caseReadings rest)))

def defaultReadings : Option (List Node) → Script Reading
  | none => .lines []
  | some ns => .append (.lines [⟨.plain, []⟩]) (statementsReadings ns)

end

/-! ### The lines say it -/

variable {table} {ts : List Token} {ns : List String} {depth : Nat} {text name : String} {id : Int} {r : Reading}

def Reads (f : Script Line) (g : Script Reading) : Prop :=
  ∀ j, List.Forall₂ Line.Says (f j).1 (g j).1 ∧ (f j).2 = (g j).2

namespace Reads

variable {f f' : Script Line} {g g' : Script Reading}
variable {l : Line}

theorem nil : Reads (.lines []) (.lines []) := fun _ => ⟨.nil, rfl⟩

theorem line (h : l.Says r) : Reads (.lines [l]) (.lines [r]) := fun _ => ⟨.cons h .nil, rfl⟩

theorem append (h : Reads f g) (h' : Reads f' g') : Reads (f.append f') (g.append g') := by
  intro j
  obtain ⟨hlines, hj⟩ := h j
  obtain ⟨hlines', hj'⟩ := h' (f j).2
  rw [hj] at hlines' hj'
  simp only [Script.append, hj]
  exact ⟨List.rel_append hlines hlines', hj'⟩

theorem braced {l' : Line} {r' : Reading} (hl : l.Says r) (hl' : l'.Says r') (h : Reads f g) :
    Reads (f.braced l l') (g.braced r r') :=
  (line hl).append (h.append (line hl'))

theorem loop {header : Frame → Line} {row : Frame → Reading}
    (hheader : ∀ frame, (header frame).Says (row frame)) (hl : l.Says r) (h : Reads f g) :
    Reads (f.loop header l) (g.loop row r) := by
  intro j
  obtain ⟨hlines, hj⟩ := h ⟨j.labels, .loop none :: j.frames⟩
  simp only [Script.loop, hj, and_true]
  exact .cons (hheader _) (List.rel_append hlines (.cons hl .nil))

theorem switch (h : Reads f g) : Reads f.switch g.switch := by
  intro j
  obtain ⟨hlines, hj⟩ := h ⟨j.labels, .switch :: j.frames⟩
  simp only [Script.switch, hj, and_true]
  exact hlines

theorem function (h : Reads f g) : Reads f.function g.function := by
  intro j
  obtain ⟨hlines, hj⟩ := h ⟨j.labels, []⟩
  simp only [Script.function, hj, and_true]
  exact hlines

end Reads

theorem uses_map {A : Set Int} {ms : List Mention} (h : Accounted A [] ms) :
    (ms.map (mentionText table)).map (Occurrence.mk · false) = ms.map (occurrence table) := by
  have hnone : ∀ m ∈ ms, m.declares = false := by
    have hnil := List.map_eq_nil_iff.mp h.declaring
    simpa using List.filter_eq_nil_iff.mp hnil
  rw [List.map_map]
  apply List.map_congr_left
  intro m hm
  simp [occurrence, hnone m hm]

variable {E : Vocabulary} {Γ : Site}

/-- An expression that stands for itself, or a part of a statement. -/
structure Told (table : List Int) (n : Node) : Prop where
  fragment : Fragment (expressionText table n) (n.mentions.map (mentionText table))
  uses : (n.mentions.map (mentionText table)).map (Occurrence.mk · false) = n.mentions.map (occurrence table)

theorem told_expression (h : Scoped.Expression Γ n) (hn : Vocabulary.Tree E n) : Told table n :=
  ⟨fragment_expression h hn, uses_map (Scoped.accounted_expression h)⟩

theorem told_update (h : Scoped.Update Γ n) (hn : Vocabulary.Tree E n) : Told table n :=
  ⟨fragment_update h hn, uses_map (Scoped.accounted_update h)⟩

theorem declaredText_some (h : E.Has v.id v.name) :
    declaredText table (some v) = nameText table v.id v.name := by
  rw [declaredText, Option.map_some, Option.getD_some, variableText, beq_library_of_vocabulary h rfl]
  rfl

theorem declaration_variable (h : E.Has v.id v.name) :
    (ofVariable true v).own.map (occurrence table) = [⟨nameText table v.id v.name, true⟩] := by
  rw [Mention.own_of_not_isLibrary (E.own h)]
  rfl

theorem says_statement (h : Told table n) :
    (Line.mk depth (expressionText table n ++ ";")).Says ⟨.plain, n.mentions.map (occurrence table)⟩ := by
  rw [← h.uses]
  exact says_plain h.fragment (.inl rfl)

theorem says_assign {target source : Node} (h : Told table target) (h' : Told table source) :
    (Line.mk depth s!"{expressionText table target} = {expressionText table source};").Says
      ⟨.plain, (target.mentions ++ source.mentions).map (occurrence table)⟩ := by
  rw [map_append, ← h.uses, ← h'.uses, ← map_append]
  exact says_plain ((h.fragment.fixed _ (by decide)).append h'.fragment) (.inl rfl)

theorem says_return {value : Node} (h : Told table value) :
    (Line.mk depth s!"return {expressionText table value};").Says
      ⟨.plain, value.mentions.map (occurrence table)⟩ := by
  rw [← h.uses]
  exact says_plain ((opening_fixed "return " (by decide)).append h.fragment) (.inl rfl)

theorem says_case (h : Told table guard) :
    (Line.mk depth s!"case {expressionText table guard}:").Says
      ⟨.plain, guard.mentions.map (occurrence table)⟩ := by
  rw [← h.uses]
  exact says_plain ((opening_fixed "case " (by decide)).append h.fragment) (.inr rfl)

theorem spells_let (hopen : Closes opening us) (h : IsName name) :
    Spells (opening ++ nameText table id name) (us ++ [word (nameText table id name).toList]) :=
  hopen.followed (spells_nameText h)

theorem says_varDecl (h : E.Has v.id v.name) (hinit : init = .missing ∨ Told table init) :
    Reads (if init.isMissing then .lines [⟨depth, s!"let {declaredText table (some v)};"⟩]
        else .lines [⟨depth, s!"let {declaredText table (some v)} = {expressionText table init};"⟩])
      (.lines [⟨.plain, ((ofVariable true v).own ++ init.mentions).map (occurrence table)⟩]) := by
  have hopen : Closes "let " [word "let".toList] := closes_of_isClosed _ (by decide)
  have hname : Spells ("let " ++ nameText table v.id v.name) _ := spells_let hopen (E.isName h)
  rw [map_append, declaration_variable h, declaredText_some h]
  split
  · next hmissing =>
    have hnone : init.mentions = [] := by cases init <;> first | rfl | cases hmissing
    rw [hnone]
    have hempty : Inner [] [] := inner_of_isNameless _ rfl
    refine Reads.line (says_let ?_ hempty)
    exact (hname.fixed _ (by decide)).spells
  · next hpresent =>
    rcases hinit with rfl | hinit
    · exact absurd rfl hpresent
    · obtain ⟨ts, hts, hinner⟩ := hinit.fragment
      have hspells := (((hname.fixed " = " (by decide)).followed hts).fixed ";"
        (by decide)).spells
      rw [← hinit.uses]
      exact Reads.line (says_let hspells (inner_mark (by decide) hinner))

theorem says_brace : (Line.mk depth "\x7d").Says ⟨.closes, []⟩ :=
  (says_ofList (by decide) (by decide) (by decide)).line

theorem spells_bracketed {a : String} (hopen : Closes opening us) (h : Spells a ts) :
    Spells (opening ++ a ++ ") \x7b") (us ++ ((ts ++ [mark ')']) ++ [mark '\x7b'])) := by
  have hall := ((hopen.followed h).fixed ") \x7b" (by decide)).spells
  rw [append_assoc] at hall
  rw [append_assoc]
  exact hall

theorem Inner.bracket (h : Inner ts ns) : Inner (ts ++ [mark ')']) ns := h.followed (by decide)

theorem occurrences_head (h : Inner ts ns) :
    occurrences false (ts ++ [mark '\x7b']) = ns.map (Occurrence.mk · false) := by
  rw [occurrences_inner h]
  exact List.append_nil _

theorem says_if (h : Told table guard) :
    (Line.mk depth s!"if ({expressionText table guard}) \x7b").Says
      ⟨.opens none .plain, guard.mentions.map (occurrence table)⟩ := by
  obtain ⟨ts, hts, hinner⟩ := h.fragment
  have hopen : Closes "if (" [word "if".toList, mark '('] := closes_of_isClosed _ (by decide)
  rw [← h.uses, ← occurrences_head hinner.bracket]
  exact says_head (by decide) (spells_bracketed hopen hts) hinner.bracket.isInside
    hinner.bracket.newline_notMem

theorem says_elseIf (h : Told table guard) :
    (Line.mk depth s!"\x7d else if ({expressionText table guard}) \x7b").Says
      ⟨.reopens, guard.mentions.map (occurrence table)⟩ := by
  obtain ⟨ts, hts, hinner⟩ := h.fragment
  have hopen : Closes "\x7d else if (" [mark '\x7d', word "else".toList, word "if".toList, mark '('] :=
    closes_of_isClosed _ (by decide)
  have hwords : Inner [word "else".toList, word "if".toList, mark '('] [] := inner_of_isNameless _ (by decide)
  have hspells := spells_bracketed hopen hts
  rw [← append_assoc] at hspells
  rw [← h.uses]
  exact says_reopens hspells (hwords.append hinner.bracket)

theorem says_switch {scrutinee : Node} (h : Told table scrutinee) :
    (Line.mk depth s!"switch({expressionText table scrutinee}) \x7b").Says
      ⟨.opens none .switch, scrutinee.mentions.map (occurrence table)⟩ := by
  obtain ⟨ts, hts, hinner⟩ := h.fragment
  have hopen : Closes "switch(" [word "switch".toList, mark '('] := closes_of_isClosed _ (by decide)
  rw [← h.uses, ← occurrences_head hinner.bracket]
  exact says_head (by decide) (spells_bracketed hopen hts) hinner.bracket.isInside
    hinner.bracket.newline_notMem

theorem spells_block {header : String} (h : Closes header ts) :
    Spells (header ++ " \x7b") (ts ++ [mark '\x7b']) :=
  (h.append (closes_of_isClosed " \x7b" (by decide))).spells

theorem says_while (h : Told table condition) (frame : Frame) :
    (loopHeader depth (whileHeader (expressionText table condition) ++ " \x7b") frame).Says
      ⟨.opens frame.label .loop, condition.mentions.map (occurrence table)⟩ := by
  obtain ⟨ts, hts, hinner⟩ := h.fragment
  have hopen : Closes "while (" [word "while".toList, mark '('] := closes_of_isClosed _ (by decide)
  have hheader : Closes (whileHeader (expressionText table condition))
      ([word "while".toList, mark '('] ++ ts ++ [mark ')']) := (hopen.followed hts).fixed _ (by decide)
  have hspells := spells_block hheader
  rw [append_assoc, append_assoc, ← append_assoc ts] at hspells
  rw [← h.uses, ← occurrences_head hinner.bracket]
  exact says_loop (by decide) (by decide) hspells hinner.bracket.isInside hinner.bracket.newline_notMem frame

theorem says_for {step : Node} (h : E.Has v.id v.name) (hinit : Told table init)
    (hcondition : Told table condition) (hstep : Told table step) (frame : Frame) :
    (loopHeader depth (forHeader (declaredText table (some v)) (expressionText table init)
        (expressionText table condition) (expressionText table step) ++ " \x7b") frame).Says
      ⟨.opens frame.label .loop, ((ofVariable true v).own ++
          (init.mentions ++ (condition.mentions ++ step.mentions))).map (occurrence table)⟩ := by
  obtain ⟨is, his, hinner⟩ := hinit.fragment
  obtain ⟨cs, hcs, hinner'⟩ := hcondition.fragment
  obtain ⟨ss, hss, hinner''⟩ := hstep.fragment
  have hall : Inner (mark '=' :: (is ++ mark ';' :: (cs ++ mark ';' :: (ss ++ [mark ')'])))) _ :=
    inner_mark (by decide) (hinner.append (inner_mark (by decide) (hinner'.append
      (inner_mark (by decide) hinner''.bracket))))
  have hopen : Closes "for (let " [word "for".toList, mark '(', word "let".toList] :=
    closes_of_isClosed _ (by decide)
  have hheader : Closes (forHeader (nameText table v.id v.name) (expressionText table init)
      (expressionText table condition) (expressionText table step))
      ([word "for".toList, mark '(', word "let".toList] ++ [word (nameText table v.id v.name).toList] ++
        [mark '='] ++ is ++ [mark ';'] ++ cs ++ [mark ';'] ++ ss ++ [mark ')']) :=
    ((((((spells_let hopen (E.isName h)).fixed _ (by decide)).followed his).fixed _ (by decide)).followed
      hcs).fixed _ (by decide)).followed hss |>.fixed _ (by decide)
  have hword : "for".toList ∈ heads := by decide
  rw [declaredText_some h, map_append, declaration_variable h, map_append, map_append,
    ← hinit.uses, ← hcondition.uses, ← hstep.uses, ← map_append, ← map_append, List.singleton_append,
    ← occurrences_head hall, ← occurrences_let]
  refine says_loop hword (by decide) ?_ (isInside_let hall.isInside) (newline_notMem_let hall.newline_notMem) frame
  simpa only [append_assoc, List.cons_append, List.nil_append] using spells_block hheader

theorem fragments_parameters {ps : List Parameter} (h : ∀ p ∈ ps, p.entity.isSome)
    (hE : ∀ p ∈ ps, Vocabulary.Variables E p.entity) :
    Fragments (ps.map fun p => declaredText table p.entity)
      ((ofParameters ps).map (mentionText table)) := by
  induction ps with
  | nil => exact fragments_nil
  | cons p ps ih =>
    rw [List.forall_mem_cons] at h hE
    obtain ⟨v, hv⟩ := Option.isSome_iff_exists.mp h.1
    rw [List.map_cons, ofParameters, List.flatMap_cons, map_append, hv, Option.toList_some,
      flatMap_singleton]
    exact (ih h.2 hE.2).cons (fragment_variable (.inr (hE.1 v hv)))

theorem declarations_parameters (ps : List Parameter) :
    ((ofParameters ps).map (mentionText table)).map (Occurrence.mk · true) =
      (ofParameters ps).map (occurrence table) := by
  rw [List.map_map]
  apply List.map_congr_left
  intro m hm
  obtain ⟨p, -, hm⟩ := List.mem_flatMap.mp hm
  obtain ⟨v, -, hm⟩ := List.mem_flatMap.mp hm
  unfold Mention.own at hm
  split at hm
  · cases hm
  · rw [List.mem_singleton.mp hm]
    rfl

theorem says_functionHeader {f : Function} {params : Option (List Parameter)} (h : E.Has f.id f.name)
    (hsome : ∀ p ∈ params.getD [], p.entity.isSome) (hparams : Vocabulary.Parameters E params) :
    (Line.mk depth (functionHeader (functionText table (some f)) (parameterTexts table params))).Says
      ⟨.opens none .function, ((Mention.ofFunction true f).own ++
        ofParameters (params.getD [])).map (occurrence table)⟩ := by
  obtain ⟨ts, hts, hinner⟩ := fragments_parameters hsome hparams ", " (by decide)
  have hopen : Closes "function " [word "function".toList] := closes_of_isClosed _ (by decide)
  have hname : Closes ("function " ++ nameText table f.id f.name ++ "(")
      ([word "function".toList] ++ [word (nameText table f.id f.name).toList] ++ [mark '(']) :=
    (spells_let hopen (E.isName h)).fixed _ (by decide)
  have hall : Inner (mark '(' :: (ts ++ [mark ')'])) _ := inner_mark (by decide) hinner.bracket
  rw [Mention.own_of_not_isLibrary (E.own h), map_append, ← declarations_parameters]
  refine says_function ?_ hall
  exact spells_bracketed hname hts

variable {Γ : Site}

mutual

theorem reads_statement {Γ : Site} (depth : Nat) {n : Node} (h : Scoped.Statement Γ n)
    (hn : Vocabulary.Tree E n) : Reads (statementLines table depth n) (statementReadings table n) := by
  cases n with
  | varDecl =>
    obtain ⟨v, rfl⟩ := Option.isSome_iff_exists.mp h.2
    rw [statementLines, statementReadings, Node.mentions, Option.toList_some, flatMap_singleton]
    · exact says_varDecl (hn.1 v rfl) (h.1.imp_right (told_expression · hn.2))
    all_goals simp
  | assign =>
    rw [statementLines, statementReadings, Node.mentions]
    · exact .line (says_assign (told_expression h.1 hn.1) (told_expression h.2 hn.2))
    all_goals simp
  | funDecl =>
    obtain ⟨f, rfl, hparams, hbody⟩ := h
    rw [statementLines, statementReadings, Option.toList_some, flatMap_singleton]
    exact (reads_block (depth + 1) hbody hn.2.2).function.braced
      (says_functionHeader (hn.1 f rfl) hparams hn.2.1) says_brace
  | ifElse =>
    rw [statementLines, statementReadings]
    exact ((reads_ifCases depth h.1 hn.2.1).append (reads_elseBlock depth h.2 hn.2.2)).append
      (.line says_brace)
  | whileLoop =>
    rw [statementLines, statementReadings]
    exact (reads_block _ h.2 hn.2).loop (says_while (told_expression h.1 hn.1)) says_brace
  | forLoop =>
    obtain ⟨v, rfl, hinit, hcondition, hstep, hbody⟩ := h
    obtain ⟨hv, hn₁, hn₂, hn₃, hn₄⟩ := hn
    rw [statementLines, statementReadings, Option.toList_some, flatMap_singleton]
    exact (reads_block _ hbody hn₄).loop (says_for (hv v rfl) (told_expression hinit hn₁)
      (told_expression hcondition hn₂) (told_update hstep hn₃)) says_brace
  | switch =>
    rw [statementLines, statementReadings]
    exact ((reads_switchCases _ h.2.1 hn.2.1).append (reads_defaultClause _ h.2.2 hn.2.2)).switch.braced
      (says_switch (told_expression h.1 hn.1)) says_brace
  | giveBack =>
    rw [statementLines, statementReadings, Node.mentions]
    · exact .line (says_return (told_expression h.2 hn))
    all_goals simp
  | giveBackNothing =>
    rw [statementLines, statementReadings, Node.mentions, List.map_nil]
    · exact .line (says_ofList (by decide) (by decide) (by decide)).line
    all_goals simp
  | next => exact .line (says_ofList (by decide) (by decide) (by decide)).line
  | chop => exact fun j => ⟨.cons (says_break j.leave.1) .nil, rfl⟩
  | _ =>
    rw [statementLines, statementReadings]
    · exact .line (says_statement (h.elim (told_update · hn) (told_expression · hn)))
    all_goals simp

theorem reads_statements {Γ : Site} (depth : Nat) : ∀ {l : List Node}, Scoped.Statements Γ l →
    Vocabulary.Trees E l → Reads (statementsLines table depth l) (statementsReadings table l)
  | [], _, _ => .nil
  | _ :: _, h, hl => (reads_statement depth h.1 hl.1).append (reads_statements depth h.2 hl.2)

theorem reads_block {Γ : Site} (depth : Nat) : ∀ {l : Option (List Node)}, Scoped.Block Γ l →
    Vocabulary.Optional E l → Reads (blockLines table depth l) (blockReadings table l)
  | none, _, _ => .nil
  | some ns, h, hl => reads_statements depth (l := ns) h hl

theorem reads_ifCases {Γ : Site} (depth : Nat) : ∀ {l : List (Arm Node)}, Scoped.Arms Γ l →
    Vocabulary.Arms E l →
    Reads (ifLines table depth "if" l) (ifReadings table (.opens none .plain) l)
  | [], _, _ => .nil
  | ⟨_, _⟩ :: _, h, hl =>
    (Reads.line (says_if (told_expression h.1 hl.1))).append
      ((reads_block _ h.2.1 hl.2.1).append (reads_elseIfs depth h.2.2 hl.2.2))

theorem reads_elseIfs {Γ : Site} (depth : Nat) : ∀ {l : List (Arm Node)}, Scoped.Arms Γ l →
    Vocabulary.Arms E l → Reads (ifLines table depth "\x7d else if" l) (ifReadings table .reopens l)
  | [], _, _ => .nil
  | ⟨_, _⟩ :: _, h, hl =>
    (Reads.line (says_elseIf (told_expression h.1 hl.1))).append
      ((reads_block _ h.2.1 hl.2.1).append (reads_elseIfs depth h.2.2 hl.2.2))

theorem reads_elseBlock {Γ : Site} (depth : Nat) : ∀ {l : Option (List Node)}, Scoped.Block Γ l →
    Vocabulary.Optional E l → Reads (elseLines table depth l) (elseReadings table l)
  | none, _, _ | some [], _, _ => .nil
  | some (_ :: _), h, hl =>
    (Reads.line (says_ofList (by decide) (by decide) (by decide)).line).append
      ((reads_statement _ h.1 hl.1).append (reads_statements _ h.2 hl.2))

theorem reads_switchCases {Γ : Site} (depth : Nat) : ∀ {l : List (Arm Node)}, Scoped.Arms Γ l →
    Vocabulary.Arms E l → Reads (caseLines table depth l) (caseReadings table l)
  | [], _, _ => .nil
  | ⟨_, _⟩ :: _, h, hl =>
    (Reads.line (says_case (told_expression h.1 hl.1))).append
      ((reads_block _ h.2.1 hl.2.1).append ((Reads.line (says_break none)).append
        (reads_switchCases depth h.2.2 hl.2.2)))

theorem reads_defaultClause {Γ : Site} (depth : Nat) : ∀ {l : Option (List Node)}, Scoped.Block Γ l →
    Vocabulary.Optional E l → Reads (defaultLines table depth l) (defaultReadings table l)
  | none, _, _ => .nil
  | some ns, h, hl =>
    (Reads.line (says_ofList (by decide) (by decide) (by decide)).line).append (reads_statements _ (l := ns) h hl)

end

/-! ### The program -/

/-- What the function in front of a program that prints says: it has no names of the program. -/
def helperReadings : List Reading :=
  ⟨.opens none .function, []⟩ :: (List.replicate 5 ⟨.plain, []⟩ ++ [⟨.closes, []⟩])

set_option maxRecDepth 2000 in
theorem says_helper : List.Forall₂ Says showHelper helperReadings := by
  refine .cons ?_ (.cons ?_ (.cons ?_ (.cons ?_ (.cons ?_ (.cons ?_ (.cons ?_ .nil))))))
  all_goals exact says_ofList (by decide +kernel) (by decide +kernel) (by decide +kernel)

end JavaScript

theorem Program.readText_javaScript {p : Program} {E : Vocabulary} {Γ : Site} (h : Scoped.Block Γ p.statements)
    (hE : Vocabulary.Optional E p.statements) :
    ∃ text helper, p.javaScript = .ok text ∧ (helper = [] ∨ helper = JavaScript.helperReadings) ∧
      JavaScript.readText text =
        some (helper ++ (JavaScript.blockReadings p.table p.statements ⟨0, []⟩).1) := by
  obtain ⟨head, s, hhead, -, htext⟩ := p.exists_text h hE
  have hreads : JavaScript.Reads (JavaScript.blockLines p.table 0 p.statements) _ := JavaScript.reads_block 0 h hE
  obtain ⟨hhelper, ts, hts⟩ := JavaScript.readText_lines JavaScript.says_helper
  obtain ⟨hbody, -⟩ := JavaScript.readText_lines (List.forall₂_map_left_iff.mpr (hreads ⟨0, []⟩).1)
  rcases hhead with rfl | rfl
  · exact ⟨_, [], htext, .inl rfl, by rw [String.empty_append]; exact hbody⟩
  · exact ⟨_, _, htext, .inr rfl, JavaScript.readText_append hts hhelper hbody⟩

end LemonScript
