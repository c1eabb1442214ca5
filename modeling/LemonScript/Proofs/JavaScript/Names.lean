import LemonScript.Proofs.JavaScript.ReadBack
/-!
# The names of a written program

The names in a text stand for the occurrences of entities in the tree, in the same order. Each entity has
one name, which is declared once, and different entities have different names.
-/

namespace LemonScript

namespace JavaScript

/-! ### The names that are read back -/

variable {table : List Int}

/-- The names of a script are those of the occurrences. -/
def Shows (table : List Int) (f : Script Reading) (ms : List Mention) : Prop :=
  ∀ j, (f j).1.flatMap (·.names) = ms.map (occurrence table)

variable {ids : List Int} {E : Vocabulary} {ms : List Mention}

namespace Shows

variable {f g : Script Reading} {ms ms' : List Mention} {row row' : Row}

theorem nil : Shows table (.lines []) [] := fun _ => rfl

theorem line : Shows table (.lines [⟨row, ms.map (occurrence table)⟩]) ms := fun _ => List.flatMap_singleton ..

theorem bare : Shows table (.lines [⟨row, []⟩]) [] := fun _ => rfl

theorem append (hf : Shows table f ms) (hg : Shows table g ms') : Shows table (f.append g) (ms ++ ms') := by
  intro j
  rw [Script.append, List.flatMap_append, hf, hg, List.map_append]

theorem braced (hf : Shows table f ms') :
    Shows table (f.braced ⟨row, ms.map (occurrence table)⟩ ⟨row', []⟩) (ms ++ ms') := by
  rw [← List.append_nil ms']
  exact line.append (hf.append bare)

theorem loop {head : Frame → Row} (hf : Shows table f ms') :
    Shows table (f.loop (fun frame => ⟨head frame, ms.map (occurrence table)⟩) ⟨row', []⟩) (ms ++ ms') := by
  intro j
  simp only [Script.loop, List.flatMap_cons, List.flatMap_append, List.flatMap_nil, List.append_nil, List.map_append]
  rw [hf]

theorem switch (hf : Shows table f ms) : Shows table f.switch ms := fun _ => hf _

theorem function (hf : Shows table f ms) : Shows table f.function ms := fun _ => hf _

end Shows

mutual

theorem shows_statement (n : Node) : Shows table (statementReadings table n) n.mentions := by
  cases n with
  | funDecl _ _ _ _ body =>
    rw [statementReadings, Node.mentions, ← List.append_assoc]
    exact (shows_block body).function.braced
  | ifElse cases otherwise =>
    rw [statementReadings, Node.mentions, ← List.append_nil (_ ++ _)]
    exact ((shows_if _ cases).append (shows_else otherwise)).append .bare
  | whileLoop _ body =>
    rw [statementReadings, Node.mentions]
    exact (shows_block body).loop
  | forLoop _ _ _ _ body =>
    have hmentions : ∀ l₁ l₂ l₃ l₄ l₅ : List Mention,
        l₁ ++ (l₂ ++ (l₃ ++ (l₄ ++ l₅))) = l₁ ++ (l₂ ++ (l₃ ++ l₄)) ++ l₅ := by simp
    rw [statementReadings, Node.mentions, hmentions]
    exact (shows_block body).loop
  | switch _ cases default =>
    rw [statementReadings, Node.mentions]
    exact ((shows_cases cases).append (shows_default default)).switch.braced
  | chop => exact fun _ => rfl
  | next => exact fun _ => rfl
  | _ =>
    rw [statementReadings]
    · exact .line
    all_goals simp

theorem shows_statements : ∀ l : List Node, Shows table (statementsReadings table l) (Node.mentionsOfAll l)
  | [] => .nil
  | n :: ns => (shows_statement n).append (shows_statements ns)

theorem shows_block : ∀ l : Option (List Node), Shows table (blockReadings table l) (Node.mentionsIn l)
  | none => .nil
  | some ns => shows_statements ns

theorem shows_if (row : Row) : ∀ l : List (Arm Node),
    Shows table (ifReadings table row l) (Node.mentionsOfArms l)
  | [] => .nil
  | ⟨_, body⟩ :: rest => Shows.line.append ((shows_block body).append (shows_if _ rest))

theorem shows_else : ∀ l : Option (List Node), Shows table (elseReadings table l) (Node.mentionsIn l)
  | none | some [] => .nil
  | some (n :: ns) =>
    Shows.bare.append ((shows_statement n).append (shows_statements ns))

theorem shows_cases : ∀ l : List (Arm Node), Shows table (caseReadings table l) (Node.mentionsOfArms l)
  | [] => .nil
  | ⟨_, body⟩ :: rest =>
    Shows.line.append ((shows_block body).append (Shows.bare.append (shows_cases rest)))

theorem shows_default : ∀ l : Option (List Node), Shows table (defaultReadings table l) (Node.mentionsIn l)
  | none => .nil
  | some ns => Shows.bare.append (shows_statements ns)

end

/-! ### The table -/

theorem meetAll_subset (met ids : List Int) : meetAll met ids ⊆ met ++ ids := by
  induction ids generalizing met with
  | nil => simp [meetAll]
  | cons id ids ih =>
    have hmeet : meet met id ⊆ met ++ [id] := by
      unfold meet
      split
      · exact List.subset_append_left _ _
      · exact List.Subset.refl _
    refine List.Subset.trans (ih (meet met id)) (List.append_subset.mpr ⟨?_, ?_⟩)
    · exact List.Subset.trans hmeet (by simp)
    · exact List.subset_append_of_subset_right _ (List.subset_cons_self _ _)

theorem removeAll_singleton {α : Type} [BEq α] [LawfulBEq α] (a : α) (l : List α) :
    [a].removeAll l = if l.contains a then [] else [a] := by
  unfold List.removeAll
  cases h : l.contains a <;> simp_all

/-- The numbers of entities are given out in the order in which they are met. -/
theorem eraseDups_numbers (h : meetAll [] ids <+: table) :
    (ids.map fun id => some (table.idxOf id + 1)).eraseDups =
      (List.range' 1 (meetAll [] ids).length).map some := by
  induction ids using List.reverseRecOn with
  | nil => rfl
  | append_singleton ids id ih =>
    have hmeet : meetAll [] (ids ++ [id]) = meet (meetAll [] ids) id := meetAll_append [] ids [id]
    rw [hmeet] at h ⊢
    rw [List.map_append, List.eraseDups_append, ih ((prefix_meet _ id).trans h), List.map_singleton,
      removeAll_singleton]
    by_cases hid : id ∈ ids
    · have hmet : meet (meetAll [] ids) id = meetAll [] ids := if_pos (List.contains_iff_mem.mpr (mem_meetAll hid))
      have hknown : some (table.idxOf id + 1) ∈ ids.map fun id => some (table.idxOf id + 1) :=
        List.mem_map_of_mem hid
      rw [hmet, if_pos (List.contains_iff_mem.mpr hknown)]
      exact List.append_nil _
    · have hnew : id ∉ meetAll [] ids := fun hmem => hid (by simpa using meetAll_subset [] ids hmem)
      have hmet : meet (meetAll [] ids) id = meetAll [] ids ++ [id] := if_neg (by simpa using hnew)
      have hplace : table.idxOf id = (meetAll [] ids).length := by
        rw [hmet] at h
        rw [← idxOf_of_grown h (by simp), List.idxOf_append_of_notMem hnew, List.idxOf_cons_self, Nat.add_zero]
      have hunknown : some (table.idxOf id + 1) ∉ ids.map fun id => some (table.idxOf id + 1) := by
        intro hmem
        obtain ⟨id', hid', heq⟩ := List.mem_map.mp hmem
        have hmem' : id' ∈ table := ((prefix_meet _ id).trans h).subset (mem_meetAll hid')
        have hidx : table.idxOf id' = table.idxOf id := by simpa using heq
        rw [(List.idxOf_inj hmem').mp hidx] at hid'
        exact hid hid'
      rw [hmet, if_neg (by simpa using hunknown), hplace, List.length_append, List.length_singleton,
        List.range'_concat, List.map_append]
      simp [List.eraseDups_cons, Nat.add_comm]

/-! ### A faithful renaming -/

/-- The names that are not the program's own. -/
def foreignNames : List String := ["Math", "console", "__show"]

/-- The names of a text rename the entities of a tree faithfully. -/
structure Renames (os : List Occurrence) (ms : List Mention) : Prop where
  declares : os.map (·.declares) = ms.map (·.declares)
  stem : ∀ p ∈ os.zip ms, ∃ k : Nat, p.1.name = s!"{p.2.name}_{k}"
  same : ∀ p ∈ os.zip ms, ∀ p' ∈ os.zip ms, p.1.name = p'.1.name ↔ p.2.id = p'.2.id
  declared : ∀ o ∈ os, (os.filter fun d => d.declares && d.name == o.name).length = 1
  own : ∀ o ∈ os, o.name ∉ foreignNames
  numbered : ∃ n, (os.map fun o => suffix? o.name.toList).eraseDups = (List.range' 1 n).map some

theorem suffix?_mentionText (table : List Int) (m : Mention) :
    suffix? (mentionText table m).toList = some (table.idxOf m.id + 1) :=
  suffix?_nameText table m.id m.name

theorem mentionText_inj (hE : Vocabulary.Spans E ms) {m m' : Mention} (hm : m ∈ ms) (hm' : m' ∈ ms)
    (htable : m.id ∈ table) : mentionText table m = mentionText table m' ↔ m.id = m'.id := by
  constructor
  · intro h
    have hsuffix := suffix?_mentionText table m
    rw [h, suffix?_mentionText] at hsuffix
    exact (List.idxOf_inj htable).mp (by simpa using hsuffix.symm)
  · intro h
    have hname : m.name = m'.name := E.unique (hE m hm) (h ▸ hE m' hm')
    rw [mentionText, mentionText, h, hname]

theorem mem_zip_occurrences {p : Occurrence × Mention} (h : p ∈ (ms.map (occurrence table)).zip ms) :
    p.2 ∈ ms ∧ p.1 = occurrence table p.2 := by
  have hpairs : (ms.map (occurrence table)).zip (ms.map id) = ms.map fun m => (occurrence table m, m) :=
    List.zip_map'
  rw [List.map_id] at hpairs
  rw [hpairs] at h
  obtain ⟨m, hm, rfl⟩ := List.mem_map.mp h
  exact ⟨hm, rfl⟩

/-- Among the occurrences of an entity, one declares it. -/
theorem length_declarations (hE : Vocabulary.Spans E ms) (hms : Accounted ∅ ids ms)
    (hnodup : ids.Nodup) (htable : ∀ m ∈ ms, m.id ∈ table) {m : Mention} (hm : m ∈ ms) :
    ((ms.map (occurrence table)).filter fun d => d.declares && d.name == mentionText table m).length = 1 := by
  have hsame : ∀ m' ∈ ms, (m'.declares && mentionText table m' == mentionText table m) =
      (m'.id == m.id && m'.declares) := by
    intro m' hm'
    rw [Bool.and_comm, Bool.eq_iff_iff, Bool.and_eq_true, Bool.and_eq_true, beq_iff_eq, beq_iff_eq,
      mentionText_inj hE hm' hm (htable m' hm')]
  have hdeclared : m.id ∈ ids := (hms.inScope m hm).resolve_left id
  rw [List.filter_map, List.length_map]
  calc
    _ = (ms.filter fun m' => m'.id == m.id && m'.declares).length := by
      rw [← List.filter_congr hsame]
      rfl
    _ = ids.count m.id := by
      rw [← List.filter_filter, ← List.countP_eq_length_filter, ← hms.declaring, List.count, List.countP_map]
      rfl
    _ = 1 := List.count_eq_one_of_mem hnodup hdeclared

theorem renames_mentions (hE : Vocabulary.Spans E ms) (hms : Accounted ∅ ids ms)
    (hnodup : ids.Nodup) : Renames (ms.map (occurrence (meetAll [] (ms.map (·.id))))) ms := by
  have htable : ∀ m ∈ ms, m.id ∈ meetAll [] (ms.map (·.id)) := fun m hm => mem_meetAll (List.mem_map_of_mem hm)
  refine ⟨?_, ?_, ?_, ?_, ?_, ?_⟩
  · rw [List.map_map]
    rfl
  · intro p hp
    rw [(mem_zip_occurrences hp).2]
    exact ⟨_, rfl⟩
  · intro p hp p' hp'
    obtain ⟨hm, hp⟩ := mem_zip_occurrences hp
    obtain ⟨hm', hp'⟩ := mem_zip_occurrences hp'
    rw [hp, hp']
    exact mentionText_inj hE hm hm' (htable _ hm)
  · rw [List.forall_mem_map]
    exact fun m hm => length_declarations hE hms hnodup htable hm
  · rw [List.forall_mem_map]
    intro m _ hforeign
    have hnone : ∀ name ∈ foreignNames, suffix? name.toList = none := by decide
    exact Option.some_ne_none _ ((suffix?_mentionText _ m).symm.trans (hnone _ hforeign))
  · refine ⟨(meetAll [] (ms.map (·.id))).length, ?_⟩
    rw [List.map_map, ← eraseDups_numbers (List.prefix_refl _), List.map_map]
    exact congrArg _ (List.map_congr_left fun m _ => suffix?_mentionText _ m)

end JavaScript

end LemonScript
