import LemonScript.JavaScript.Program
import LemonScript.Proofs.Syntax.Mention
/-!
# The written program as a function of the tree

The writer carries a table of the entities met so far. A name only depends on the place of its entity in
the table, and that place does not change when the table grows. So every text can be told from the tree
and the table at the end. What is left of the state are the jumps: how many labels are in use, and the
loops and switches around the present place.
-/

namespace LemonScript

open Node (mentions mentionsIn mentionsOfAll mentionsOfArms)
open List (map_append)

namespace JavaScript

/-! ### The table of entities -/

def meet (met : List Int) (id : Int) : List Int := if met.contains id then met else met ++ [id]

def meetAll (met ids : List Int) : List Int := ids.foldl meet met

variable {ids : List Int} {id : Int} {name : String} {declares : Bool} {callee : Node}
  {m : Emit (List Line)}

theorem meetAll_append (met ids ids' : List Int) :
    meetAll met (ids ++ ids') = meetAll (meetAll met ids) ids' :=
  List.foldl_append

theorem prefix_meet (met : List Int) (id : Int) : met <+: meet met id := by
  unfold meet
  split
  · exact List.prefix_rfl
  · exact List.prefix_append met [id]

theorem prefix_meetAll (met ids : List Int) : met <+: meetAll met ids := by
  induction ids generalizing met with
  | nil => exact List.prefix_rfl
  | cons id ids ih => exact (prefix_meet met id).trans (ih (meet met id))

theorem mem_meet (met : List Int) (id : Int) : id ∈ meet met id := by
  unfold meet
  split
  · next h => exact List.contains_iff_mem.mp h
  · simp

theorem mem_meetAll {met : List Int} (h : id ∈ ids) : id ∈ meetAll met ids := by
  induction ids generalizing met with
  | nil => simp at h
  | cons i ids ih =>
    rcases List.mem_cons.mp h with rfl | h
    · exact (prefix_meetAll (meet met id) ids).subset (mem_meet met id)
    · exact ih h

theorem idxOf_of_grown {l table : List Int} (hmet : l <+: table) (h : id ∈ l) :
    l.idxOf id = table.idxOf id := by
  obtain ⟨rest, rfl⟩ := hmet
  exact (List.idxOf_append_of_mem h).symm

/-! ### Texts -/

variable (table : List Int)

def nameText (id : Int) (name : String) : String := s!"{name}_{table.idxOf id + 1}"

def variableText (v : Variable) : String :=
  if v.id == Library.pi.id then "Math.PI" else nameText table v.id v.name

def callText (callee : Node) (text args : String) : String :=
  match callee with
  | .fn f =>
    if f.id == Library.pour.id then s!"console.log(__show({args}))"
    else if f.id == Library.species.id then s!"typeof {args}"
    else s!"{text}({args})"
  | _ => s!"{text}({args})"

mutual

def expressionText : Node → String
  | .var v => variableText table v
  | .fn f => nameText table f.id f.name
  | .intLit n => s!"{n}n"
  | .floatLit x => floatText x
  | .stringLit value => jsonString .plain value
  | .boolLit _ value _ => if value then "true" else "false"
  | .binary left op right _ => binaryText (expressionText left) op (expressionText right)
  | .unary op operand leading _ => unaryText op (expressionText operand) leading
  | .call callee args _ => callText callee (expressionText callee) (commaList (optionalTexts args))
  | .arrayLit elements _ => "[" ++ ",".intercalate (optionalTexts elements) ++ "]"
  | .mapLit entries _ => "\x7b" ++ commaList (entryTexts entries) ++ "\x7d"
  | .member array index _ => s!"({expressionText array}[{index.getD 0}])"
  | .property map key _ => s!"({expressionText map}[{expressionText key}])"
  | _ => ""

def expressionTexts : List Node → List String
  | [] => []
  | n :: ns => expressionText n :: expressionTexts ns

def optionalTexts : Option (List Node) → List String
  | none => []
  | some ns => expressionTexts ns

def entryTexts : List (Entry Node) → List String
  | [] => []
  | ⟨key, value⟩ :: rest => s!"[{expressionText key}]: {expressionText value}" :: entryTexts rest

end

def declaredText (entity : Option Variable) : String := (entity.map (variableText table)).getD ""

def functionText (entity : Option Function) : String :=
  (entity.map fun f => nameText table f.id f.name).getD ""

def parameterTexts (params : Option (List Parameter)) : List String :=
  (params.getD []).map fun p => declaredText table p.entity

/-! ### Lines -/

/-- What the writer has to know about loops and switches. -/
structure Jumps where
  labels : Nat
  frames : List Frame

def EmitState.jumps (s : EmitState) : Jumps := ⟨s.labels, s.frames⟩

/-- Lines, or what is told of them, that depend on the jumps and change them. -/
abbrev Script (α : Type) := Jumps → List α × Jumps

def Jumps.leave (j : Jumps) : Option Nat × Jumps :=
  match j.frames with
  | .switch :: _ =>
    match labelInnermost (j.labels + 1) j.frames with
    | some (label, frames) => (some label, ⟨max j.labels label, frames⟩)
    | none => (none, j)
  | _ => (none, j)

variable {f : Script Line}

namespace Script

variable {α : Type}

def lines (l : List α) : Script α := fun j => (l, j)

def append (f g : Script α) : Script α := fun j =>
  ((f j).1 ++ (g (f j).2).1, (g (f j).2).2)

def braced (header closing : α) (f : Script α) : Script α :=
  append (lines [header]) (append f (lines [closing]))

def chop (write : Option Nat → α) : Script α := fun j => ([write j.leave.1], j.leave.2)

def loop (header : Frame → α) (closing : α) (f : Script α) : Script α := fun j =>
  let r := f ⟨j.labels, .loop none :: j.frames⟩
  (header (r.2.frames.head?.getD (.loop none)) :: (r.1 ++ [closing]), ⟨r.2.labels, r.2.frames.tail⟩)

def switch (f : Script α) : Script α := fun j =>
  let r := f ⟨j.labels, .switch :: j.frames⟩
  (r.1, ⟨r.2.labels, r.2.frames.tail⟩)

def function (f : Script α) : Script α := fun j =>
  let r := f ⟨j.labels, []⟩
  (r.1, ⟨r.2.labels, j.frames⟩)

end Script

def breakText : Option Nat → String
  | none => "break;"
  | some label => s!"break {labelText label};"

def whileHeader (condition : String) : String := s!"while ({condition})"

def forHeader (name init condition step : String) : String := s!"for (let {name} = {init}; {condition}; {step})"

def functionHeader (name : String) (params : List String) : String :=
  s!"function {name}({commaList params}) \x7b"

mutual

def statementLines (depth : Nat) : Node → Script Line
  | .varDecl _ _ init _ _ entity =>
    if init.isMissing then .lines [⟨depth, s!"let {declaredText table entity};"⟩]
    else .lines [⟨depth, s!"let {declaredText table entity} = {expressionText table init};"⟩]
  | .assign target source =>
    .lines [⟨depth, s!"{expressionText table target} = {expressionText table source};"⟩]
  | .funDecl _ _ _ params body entity =>
    .braced ⟨depth, functionHeader (functionText table entity) (parameterTexts table params)⟩ ⟨depth, "\x7d"⟩
      (.function (blockLines (depth + 1) body))
  | .ifElse cases otherwise =>
    .append (.append (ifLines depth "if" cases) (elseLines depth otherwise)) (.lines [⟨depth, "\x7d"⟩])
  | .whileLoop condition body =>
    .loop (loopHeader depth (whileHeader (expressionText table condition) ++ " \x7b")) ⟨depth, "\x7d"⟩
      (blockLines (depth + 1) body)
  | .forLoop _ init condition step body entity =>
    .loop (loopHeader depth (forHeader (declaredText table entity) (expressionText table init)
        (expressionText table condition) (expressionText table step) ++ " \x7b")) ⟨depth, "\x7d"⟩
      (blockLines (depth + 1) body)
  | .switch scrutinee cases default =>
    .braced ⟨depth, s!"switch({expressionText table scrutinee}) \x7b"⟩ ⟨depth, "\x7d"⟩
      (.switch (.append (caseLines (depth + 1) cases) (defaultLines (depth + 1) default)))
  | .giveBack value => .lines [⟨depth, s!"return {expressionText table value};"⟩]
  | .giveBackNothing => .lines [⟨depth, "return;"⟩]
  | .chop => .chop fun label => ⟨depth, breakText label⟩
  | .next => .lines [⟨depth, "continue;"⟩]
  | n => .lines [⟨depth, expressionText table n ++ ";"⟩]

def statementsLines (depth : Nat) : List Node → Script Line
  | [] => .lines []
  | n :: ns => .append (statementLines depth n) (statementsLines depth ns)

def blockLines (depth : Nat) : Option (List Node) → Script Line
  | none => .lines []
  | some ns => statementsLines depth ns

def ifLines (depth : Nat) (keyword : String) : List (Arm Node) → Script Line
  | [] => .lines []
  | ⟨guard, body⟩ :: rest =>
    .append (.lines [⟨depth, s!"{keyword} ({expressionText table guard}) \x7b"⟩])
      (.append (blockLines (depth + 1) body) (ifLines depth "\x7d else if" rest))

def elseLines (depth : Nat) : Option (List Node) → Script Line
  | none => .lines []
  | some [] => .lines []
  | some (n :: ns) =>
    .append (.lines [⟨depth, "\x7d else \x7b"⟩])
      (.append (statementLines (depth + 1) n) (statementsLines (depth + 1) ns))

def caseLines (depth : Nat) : List (Arm Node) → Script Line
  | [] => .lines []
  | ⟨guard, body⟩ :: rest =>
    .append (.lines [⟨depth, s!"case {expressionText table guard}:"⟩])
      (.append (blockLines (depth + 1) body)
        (.append (.lines [⟨depth + 1, "break;"⟩]) (caseLines depth rest)))

def defaultLines (depth : Nat) : Option (List Node) → Script Line
  | none => .lines []
  | some ns => .append (.lines [⟨depth, "default:"⟩]) (statementsLines (depth + 1) ns)

end

/-! ### The writer writes them -/

variable {table} {α β : Type}

/-- For a table in which all is met, the step gives what the function tells from the jumps. -/
def Writes (table : List Int) (m : Emit α) (f : Jumps → α × Jumps) (ids : List Int) : Prop :=
  ∀ s : EmitState, meetAll s.met ids <+: table → ∃ prints,
    m s = .ok ((f s.jumps).1, ⟨meetAll s.met ids, (f s.jumps).2.labels, prints, (f s.jumps).2.frames⟩)

/-- The step gives a text that does not depend on the jumps. -/
abbrev Gives (table : List Int) (m : Emit α) (a : α) (ids : List Int) : Prop :=
  Writes table m (fun j => (a, j)) ids

theorem gives_pure (a : α) : Gives table (pure a) a [] := fun s _ => ⟨s.prints, rfl⟩

theorem Writes.bind {m : Emit α} {k : α → Emit β} {f : Jumps → α × Jumps} {g : α → Jumps → β × Jumps}
    {ids ids' : List Int} (hm : Writes table m f ids) (hk : ∀ a, Writes table (k a) (g a) ids') :
    Writes table (m >>= k) (fun j => g (f j).1 (f j).2) (ids ++ ids') := by
  intro s hs
  rw [meetAll_append] at hs ⊢
  obtain ⟨prints, hrun⟩ := hm s ((prefix_meetAll _ ids').trans hs)
  obtain ⟨prints', hrest⟩ := hk (f s.jumps).1 ⟨meetAll s.met ids, _, prints, (f s.jumps).2.frames⟩ hs
  refine ⟨prints', ?_⟩
  change Except.bind (m s) (fun p => k p.1 p.2) = _
  rw [hrun]
  exact hrest

theorem Gives.bind {m : Emit α} {k : α → Emit β} {a : α} {g : Jumps → β × Jumps} {ids ids' : List Int}
    (hm : Gives table m a ids) (hk : Writes table (k a) g ids') :
    Writes table (m >>= k) g (ids ++ ids') := by
  intro s hs
  rw [meetAll_append] at hs ⊢
  obtain ⟨prints, hrun⟩ := hm s ((prefix_meetAll _ ids').trans hs)
  obtain ⟨prints', hrest⟩ := hk ⟨meetAll s.met ids, s.labels, prints, s.frames⟩ hs
  refine ⟨prints', ?_⟩
  change Except.bind (m s) (fun p => k p.1 p.2) = _
  rw [hrun]
  exact hrest

theorem Gives.map {m : Emit α} {a : α} {ids : List Int} (hm : Gives table m a ids) (f : α → β) :
    Gives table (m >>= fun a => pure (f a)) (f a) ids := by
  have h := hm.bind (k := fun a => pure (f a)) (g := fun j => (f a, j)) (gives_pure (f a))
  rwa [List.append_nil] at h

theorem targetName_run (id : Int) (name : String) (s : EmitState) : targetName id name s =
      .ok (s!"{name}_{(meet s.met id).idxOf id + 1}", { s with met := meet s.met id }) :=
  rfl

theorem chopText_run (s : EmitState) : chopText s = .ok (breakText s.jumps.leave.1,
      ⟨s.met, s.jumps.leave.2.labels, s.prints, s.jumps.leave.2.frames⟩) := by
  obtain ⟨met, labels, prints, frames⟩ := s
  rcases frames with - | ⟨label | -, frames⟩
  · rfl
  · rfl
  · change (match labelInnermost (labels + 1) (.switch :: frames) with
      | some (label, frames) => _
      | none => _ : Emit String) _ = _
    simp only [Jumps.leave, EmitState.jumps]
    cases labelInnermost (labels + 1) (.switch :: frames) <;> rfl

theorem gives_targetName (id : Int) (name : String) :
    Gives table (targetName id name) (nameText table id name) [id] := by
  intro s hs
  refine ⟨s.prints, ?_⟩
  have hidx : (meet s.met id).idxOf id = table.idxOf id := idxOf_of_grown hs (mem_meet s.met id)
  rw [targetName_run, hidx]
  rfl

theorem gives_own (h : Library.isLibrary id = false) :
    Gives table (targetName id name) (nameText table id name)
      ((Mention.mk id name declares).own.map (·.id)) := by
  rw [Mention.own_of_not_isLibrary h]
  exact gives_targetName id name

variable {E : Vocabulary}

theorem beq_library_of_vocabulary (h : E.Has id name) {k : Int} (hk : Library.isLibrary k) :
    (id == k) = false := by
  have hid := E.own h
  rw [beq_eq_false_iff_ne]
  rintro rfl
  rw [hk] at hid
  cases hid

theorem gives_variable {v : Variable} (h : v.id = Library.pi.id ∨ E.Has v.id v.name) :
    Gives table (expression (.var v)) (variableText table v)
      ((Mention.ofVariable declares v).own.map (·.id)) := by
  rw [expression, variableText]
  rcases h with h | h
  · rw [Mention.own_of_isLibrary (show Library.isLibrary v.id = true by rw [h]; rfl), h]
    exact gives_pure _
  · rw [beq_library_of_vocabulary h rfl]
    exact gives_own (E.own h)

theorem expression_call (h : ∀ f, callee ≠ .fn f) (args : Option (List Node)) (type : Ty) :
    expression (.call callee args type) = do
      let callee ← expression callee
      let args ← optionalExpressions args return s!"{callee}({commaList args})" := by
  rw [expression]
  exact h

theorem gives_call {args : Option (List Node)} {type : Ty}
    (hcallee : callee.isLibraryFunction ∨ Vocabulary.Tree E callee ∧
      Gives table (expression callee) (expressionText table callee) (callee.mentions.map (·.id)))
    (hargs : Gives table (optionalExpressions args) (optionalTexts table args)
      ((mentionsIn args).map (·.id))) :
    Gives table (expression (.call callee args type)) (expressionText table (.call callee args type))
      ((Node.call callee args type).mentions.map (·.id)) := by
  rw [expressionText, mentions, map_append]
  cases callee with
  | fn f =>
    rw [expression, mentions, callText]
    rcases hcallee with hlibrary | ⟨hf, -⟩
    · have hprints : Gives table (modify fun s => { s with prints := true }) PUnit.unit [] :=
        fun s _ => ⟨true, rfl⟩
      have hown : (Mention.ofFunction false f).own = [] := Node.mentions_of_isLibraryFunction hlibrary
      rw [hown]
      by_cases hpour : (f.id == Library.pour.id) = true
      · rw [if_pos hpour, if_pos hpour]
        exact hprints.bind (hargs.map _)
      · have hspecies : (f.id == Library.species.id) = true := by
          simpa [Node.isLibraryFunction, hpour] using hlibrary
        rw [if_neg hpour, if_neg hpour, if_pos hspecies, if_pos hspecies]
        exact hargs.map _
    · rw [beq_library_of_vocabulary hf rfl, beq_library_of_vocabulary hf rfl]
      exact (gives_own (E.own hf)).bind (hargs.map _)
  | _ =>
    rcases hcallee with hlibrary | ⟨-, hcallee⟩
    · cases hlibrary
    · rw [expression_call (by simp)]
      exact hcallee.bind (hargs.map _)

variable {Γ : Site}

mutual

theorem gives_expression : ∀ {n : Node}, Scoped.Expression Γ n → Vocabulary.Tree E n →
    Gives table (expression n) (expressionText table n) (n.mentions.map (·.id))
  | .var v, _, hn => gives_variable hn
  | .fn f, _, hn => by
    rw [expression]
    exact gives_own (E.own hn)
  | .intLit _, _, _ | .floatLit _, _, _ | .stringLit _, _, _ | .boolLit .., _, _ => by
    rw [expression]
    exact gives_pure _
  | .binary left op right _, h, hn => by
    rw [expression, mentions, map_append]
    exact (gives_expression h.2.1 hn.1).bind ((gives_expression h.2.2 hn.2).map _)
  | .unary op operand leading _, h, hn => by
    rw [expression]
    exact (gives_expression (n := operand) h.2 hn).map _
  | .call callee args _, h, hn =>
    gives_call (hn.1.imp_right fun hcallee => ⟨hcallee, gives_expression h.1 hcallee⟩)
      (gives_optional h.2 hn.2)
  | .arrayLit elements _, h, hn => by
    rw [expression]
    exact (gives_optional (l := elements) h hn).map _
  | .mapLit entries _, h, hn => by
    rw [expression]
    exact (gives_entries (l := entries) h hn).map _
  | .member array index _, h, hn => by
    obtain ⟨i, rfl⟩ := Option.isSome_iff_exists.mp h.1
    rw [expression]
    exact (gives_expression (n := array) h.2 hn).map _
  | .property map key _, h, hn => by
    rw [expression, mentions, map_append]
    exact (gives_expression h.1 hn.1).bind ((gives_expression h.2 hn.2).map _)

theorem gives_expressions : ∀ {l : List Node}, Scoped.Expressions Γ l → Vocabulary.Trees E l →
    Gives table (expressions l) (expressionTexts table l) ((mentionsOfAll l).map (·.id))
  | [], _, _ => gives_pure _
  | n :: ns, h, hl => by
    rw [expressions, mentionsOfAll, map_append]
    exact (gives_expression h.1 hl.1).bind ((gives_expressions h.2 hl.2).map _)

theorem gives_optional : ∀ {l : Option (List Node)}, Scoped.Optional Γ l → Vocabulary.Optional E l →
    Gives table (optionalExpressions l) (optionalTexts table l) ((mentionsIn l).map (·.id))
  | none, _, _ => gives_pure _
  | some ns, h, hl => gives_expressions (l := ns) h hl

theorem gives_entries : ∀ {l : List (Entry Node)}, Scoped.Entries Γ l → Vocabulary.Entries E l →
    Gives table (mapEntries l) (entryTexts table l) ((Node.mentionsOfEntries l).map (·.id))
  | [], _, _ => gives_pure _
  | ⟨key, value⟩ :: rest, h, hl => by
    rw [mapEntries, Node.mentionsOfEntries, map_append, map_append]
    exact (gives_expression h.1 hl.1).bind ((gives_expression h.2.1 hl.2.1).bind
      ((gives_entries h.2.2 hl.2.2).map _))

end

theorem gives_update {n : Node} (h : Scoped.Update Γ n) (hn : Vocabulary.Tree E n) :
    Gives table (expression n) (expressionText table n) (n.mentions.map (·.id)) := by
  unfold Scoped.Update at h
  split at h
  · next v op right type =>
    rw [expression, mentions, map_append]
    exact (gives_variable hn.1).bind ((gives_expression h.2.2 hn.2).map _)
  · next op v leading type =>
    rw [expression]
    exact (gives_variable hn).map _
  · exact h.elim

/-! ### Statements -/

theorem Writes.map {m : Emit α} {f : Jumps → α × Jumps} {ids : List Int} (hm : Writes table m f ids)
    (g : α → β) : Writes table (m >>= fun a => pure (g a)) (fun j => (g (f j).1, (f j).2)) ids := by
  have h := hm.bind (k := fun a => pure (g a)) (g := fun a j => (g a, j)) fun a => gives_pure (g a)
  rwa [List.append_nil] at h

theorem Writes.append {m' : Emit (List Line)} {g : Script Line} {ids' : List Int}
    (hm : Writes table m f ids) (hm' : Writes table m' g ids') :
    Writes table (do let a ← m; let b ← m'; return a ++ b) (f.append g) (ids ++ ids') :=
  hm.bind fun a => hm'.map (a ++ ·)

theorem Writes.inFrame {m : Emit α} {f : Jumps → α × Jumps} (frame : Frame)
    (hm : Writes table m f ids) : Writes table (inFrame frame m) (fun j =>
      let r := f ⟨j.labels, frame :: j.frames⟩
      ((r.1, r.2.frames.head?.getD frame), ⟨r.2.labels, r.2.frames.tail⟩)) ids := by
  intro s hs
  obtain ⟨prints, hrun⟩ := hm { s with frames := frame :: s.frames } hs
  refine ⟨prints, ?_⟩
  change Except.bind (m { s with frames := frame :: s.frames }) _ = _
  rw [hrun]
  rfl

theorem Writes.inFunction (hm : Writes table m f ids) :
    Writes table (inFunction m) f.function ids := by
  intro s hs
  obtain ⟨prints, hrun⟩ := hm { s with frames := [] } hs
  refine ⟨prints, ?_⟩
  change Except.bind (m { s with frames := [] }) _ = _
  rw [hrun]
  rfl

theorem Writes.loopLines {m : Emit (List Line)} {f : Script Line} {ids : List Int} (depth : Nat)
    (header : String) (hm : Writes table m f ids) : Writes table (loopLines depth header m)
      (f.loop (loopHeader depth (header ++ " \x7b")) ⟨depth, "\x7d"⟩) ids :=
  (hm.inFrame (.loop none)).map fun r =>
    loopHeader depth (header ++ " \x7b") r.2 :: (r.1 ++ [(⟨depth, "\x7d"⟩ : Line)])

theorem writes_chopText : Writes table chopText (fun j => (breakText j.leave.1, j.leave.2)) [] :=
  fun s _ => ⟨s.prints, chopText_run s⟩

theorem gives_declaredVariable {entity : Option Variable} (h : entity.isSome)
    (hE : Vocabulary.Variables E entity) :
    Gives table (declaredVariable entity) (declaredText table entity)
      ((entity.toList.flatMap fun v => (Mention.ofVariable true v).own).map (·.id)) := by
  obtain ⟨v, rfl⟩ := Option.isSome_iff_exists.mp h
  rw [Option.toList_some, List.flatMap_singleton]
  exact gives_variable (.inr (hE v rfl))

theorem gives_parameterNames {ps : List Parameter} (h : ∀ p ∈ ps, p.entity.isSome)
    (hE : ∀ p ∈ ps, Vocabulary.Variables E p.entity) :
    Gives table (parameterNames ps) (ps.map fun p => declaredText table p.entity)
      ((Mention.ofParameters ps).map (·.id)) := by
  induction ps with
  | nil => exact gives_pure _
  | cons p ps ih =>
    rw [List.forall_mem_cons] at h hE
    rw [parameterNames, Mention.ofParameters, List.flatMap_cons, map_append]
    exact (gives_declaredVariable h.1 hE.1).bind ((ih h.2 hE.2).map _)

mutual

theorem writes_statement {Γ : Site} (depth : Nat) {n : Node} (h : Scoped.Statement Γ n)
    (hn : Vocabulary.Tree E n) :
    Writes table (statement depth n) (statementLines table depth n) (n.mentions.map (·.id)) := by
  cases n with
  | varDecl _ _ init =>
    rw [statement, statementLines, mentions, map_append]
    apply (gives_declaredVariable h.2 hn.1).bind
    split
    · next hmissing =>
      cases init <;> first | exact gives_pure _ | cases hmissing
    · next hpresent =>
      rcases h.1 with rfl | hinit
      · exact absurd rfl hpresent
      · exact (gives_expression hinit hn.2).map _
  | assign =>
    rw [statement, statementLines, mentions, map_append]
    exact (gives_expression h.1 hn.1).bind ((gives_expression h.2 hn.2).map _)
  | funDecl =>
    obtain ⟨f, rfl, hparams, hbody⟩ := h
    rw [statement, statementLines, mentions, map_append, map_append, Option.toList_some,
      List.flatMap_singleton, declaredFunction, expression]
    apply (gives_own (E.own (hn.1 f rfl))).bind
    apply (gives_parameterNames hparams hn.2.1).bind
    exact ((writes_block (depth + 1) hbody hn.2.2).inFunction).map _
  | ifElse =>
    rw [statement, statementLines, mentions, map_append]
    exact (writes_ifCases depth "if" h.1 hn.2.1).bind fun a =>
      (writes_elseBlock depth h.2 hn.2.2).map fun b => a ++ b ++ [⟨depth, "\x7d"⟩]
  | whileLoop =>
    rw [statement, statementLines, mentions, map_append]
    exact (gives_expression h.1 hn.1).bind ((writes_block _ h.2 hn.2).loopLines _ _)
  | forLoop =>
    obtain ⟨v, rfl, hinit, hcondition, hstep, hbody⟩ := h
    obtain ⟨hv, hn₁, hn₂, hn₃, hn₄⟩ := hn
    rw [statement, statementLines, mentions]
    simp only [map_append]
    exact (gives_declaredVariable rfl hv).bind ((gives_expression hinit hn₁).bind
      ((gives_expression hcondition hn₂).bind ((gives_update hstep hn₃).bind
        ((writes_block _ hbody hn₄).loopLines _ _))))
  | switch =>
    rw [statement, statementLines, mentions, map_append, map_append]
    apply (gives_expression h.1 hn.1).bind
    exact (((writes_switchCases _ h.2.1 hn.2.1).append (writes_defaultClause _ h.2.2 hn.2.2)).inFrame
      .switch).map _
  | giveBack value =>
    rw [statement]
    exact (gives_expression (n := value) h.2 hn).map _
  | giveBackNothing | next =>
    rw [statement]
    exact gives_pure _
  | chop =>
    rw [statement]
    exact writes_chopText.map _
  | _ =>
    rw [statement, statementLines]
    · exact (h.elim (gives_update · hn) (gives_expression · hn)).map _
    all_goals simp

theorem writes_statements {Γ : Site} (depth : Nat) : ∀ {l : List Node}, Scoped.Statements Γ l →
    Vocabulary.Trees E l → Writes table (statements depth l) (statementsLines table depth l)
      ((mentionsOfAll l).map (·.id))
  | [], _, _ => gives_pure _
  | n :: ns, h, hl => by
    rw [statements, statementsLines, mentionsOfAll, map_append]
    exact (writes_statement depth h.1 hl.1).append (writes_statements depth h.2 hl.2)

theorem writes_block {Γ : Site} (depth : Nat) : ∀ {l : Option (List Node)}, Scoped.Block Γ l →
    Vocabulary.Optional E l → Writes table (block depth l) (blockLines table depth l)
      ((mentionsIn l).map (·.id))
  | none, _, _ => gives_pure _
  | some ns, h, hl => writes_statements depth (l := ns) h hl

theorem writes_ifCases {Γ : Site} (depth : Nat) (keyword : String) : ∀ {l : List (Arm Node)},
    Scoped.Arms Γ l → Vocabulary.Arms E l → Writes table (ifCases depth keyword l)
      (ifLines table depth keyword l) ((mentionsOfArms l).map (·.id))
  | [], _, _ => gives_pure _
  | ⟨guard, body⟩ :: rest, h, hl => by
    rw [ifCases, ifLines, mentionsOfArms, map_append, map_append]
    apply (gives_expression h.1 hl.1).bind
    exact (writes_block _ h.2.1 hl.2.1).bind fun a => (writes_ifCases depth _ h.2.2 hl.2.2).map _

theorem writes_elseBlock {Γ : Site} (depth : Nat) : ∀ {l : Option (List Node)}, Scoped.Block Γ l →
    Vocabulary.Optional E l → Writes table (elseBlock depth l) (elseLines table depth l)
      ((mentionsIn l).map (·.id))
  | none, _, _ | some [], _, _ => gives_pure _
  | some (n :: ns), h, hl => by
    rw [elseBlock, elseLines, mentionsIn, mentionsOfAll, map_append]
    exact (writes_statement _ h.1 hl.1).bind fun a => (writes_statements _ h.2 hl.2).map _

theorem writes_switchCases {Γ : Site} (depth : Nat) : ∀ {l : List (Arm Node)}, Scoped.Arms Γ l →
    Vocabulary.Arms E l → Writes table (switchCases depth l) (caseLines table depth l)
      ((mentionsOfArms l).map (·.id))
  | [], _, _ => gives_pure _
  | ⟨guard, body⟩ :: rest, h, hl => by
    rw [switchCases, caseLines, mentionsOfArms, map_append, map_append]
    apply (gives_expression h.1 hl.1).bind
    exact (writes_block _ h.2.1 hl.2.1).bind fun a => (writes_switchCases depth h.2.2 hl.2.2).map _

theorem writes_defaultClause {Γ : Site} (depth : Nat) : ∀ {l : Option (List Node)}, Scoped.Block Γ l →
    Vocabulary.Optional E l → Writes table (defaultClause depth l) (defaultLines table depth l)
      ((mentionsIn l).map (·.id))
  | none, _, _ => gives_pure _
  | some ns, h, hl => by
    rw [defaultClause, defaultLines]
    exact (writes_statements _ (l := ns) h hl).map _

end

end JavaScript

namespace Program

/-- The entities of the program in the order in which a text shows them. -/
def table (p : Program) : List Int := JavaScript.meetAll [] (p.mentions.map (·.id))

theorem exists_text (p : Program) {E : Vocabulary} {Γ : Site} (h : Scoped.Block Γ p.statements)
    (hE : Vocabulary.Optional E p.statements) :
    ∃ head s, (head = "" ∨ head = "\n".intercalate JavaScript.showHelper ++ "\n") ∧
      p.javaScriptLines = .ok ((JavaScript.blockLines p.table 0 p.statements ⟨0, []⟩).1, s) ∧
      p.javaScript = .ok (head ++ "\n".intercalate
        ((JavaScript.blockLines p.table 0 p.statements ⟨0, []⟩).1.map (·.render))) := by
  obtain ⟨prints, hrun⟩ := JavaScript.writes_block 0 h hE .initial (List.prefix_refl p.table)
  have hlines : p.javaScriptLines = .ok _ := hrun
  rw [javaScript, hlines]
  cases prints with
  | true => exact ⟨_, _, .inr rfl, rfl, rfl⟩
  | false => exact ⟨"", _, .inl rfl, rfl, congrArg Except.ok String.empty_append.symm⟩

end Program

end LemonScript
