import LemonScript.Proofs.JavaScript.Jumps
/-!
# Labels

Every label that a jump names stands in front of exactly one loop. Labels are numbered as they are given
out, so those that some lines place lie between the numbers given out before and behind them. A label
that was given to a loop which is still open is kept in its frame until the line of the loop is written.
-/

namespace LemonScript

open List (append_assoc append_subset map_append nodup_append)

namespace JavaScript

def Row.placed? : Row → Option (List Char)
  | opens label _ => label
  | _ => none

def Row.used? : Row → Option (List Char)
  | leaves label => label
  | _ => none

variable {F G : List Frame}

theorem labelLetters_injective : Function.Injective labelLetters := by
  intro m n h
  rw [labelLetters_eq, labelLetters_eq] at h
  exact toDigits_inj (List.append_cancel_left h)

/-! ### Labels of open loops -/

def Frame.number? : Frame → Option Nat
  | loop label => label
  | switch => none

def numbers (F : List Frame) : List Nat := F.filterMap Frame.number?

theorem numbers_loop (label : Option Nat) (F : List Frame) :
    numbers (.loop label :: F) = label.toList ++ numbers F := by
  cases label <;> rfl

theorem Fills.numbers_subset (h : Fills F G) : numbers F ⊆ numbers G := by
  induction h with
  | nil => exact List.Subset.refl _
  | @cons frame frame' F G hframe h ih =>
    cases hframe with
    | refl =>
      cases frame with
      | loop =>
        rw [numbers_loop, numbers_loop]
        exact append_subset.mpr ⟨List.subset_append_left _ _, List.subset_append_of_subset_right _ ih⟩
      | switch => exact ih
    | label n => exact List.subset_cons_of_subset n ih

theorem numbers_labelInnermost {fresh label : Nat} (h : labelInnermost fresh F = some (label, G)) :
    label ∈ numbers G ∧ (numbers G = numbers F ∨ label = fresh ∧ numbers G = fresh :: numbers F) := by
  induction F generalizing G with
  | nil => cases h
  | cons frame F ih =>
    rcases labelInnermost_eq_some h with ⟨k, F', hF, rfl, rfl⟩ | ⟨F', G', hF, rfl, h'⟩
    · rw [hF]
      cases k with
      | none => exact ⟨List.mem_cons_self, .inr ⟨rfl, rfl⟩⟩
      | some k => exact ⟨List.mem_cons_self, .inl rfl⟩
    · obtain ⟨rfl, rfl⟩ := List.cons.inj hF
      have hrest := ih h'
      exact hrest

/-- The labels of open loops are different, and have been given out. -/
structure Jumps.Fresh (j : Jumps) : Prop where
  nodup : (numbers j.frames).Nodup
  le : ∀ n ∈ numbers j.frames, n ≤ j.labels

/-! ### Labels of lines -/

/-- The labels that lines place and use, when they change the jumps as told. -/
structure Labelled (j j' : Jumps) (rows : List Row) (placed used : List Nat) : Prop where
  placed_eq : rows.filterMap Row.placed? = placed.map labelLetters
  used_eq : rows.filterMap Row.used? = used.map labelLetters
  fills : Fills j.frames j'.frames
  le : j.labels ≤ j'.labels
  nodup : (placed ++ numbers j'.frames).Nodup
  given : ∀ n ∈ placed ++ numbers j'.frames, n ∈ numbers j.frames ∨ j.labels < n ∧ n ≤ j'.labels
  used_subset : used ⊆ placed ++ numbers j'.frames

namespace Labelled

variable {j j' j'' : Jumps} {rows rows' : List Row} {placed placed' used used' : List Nat}

theorem fresh (h : Labelled j j' rows placed used) (hj : j.Fresh) : j'.Fresh where
  nodup := (nodup_append.mp h.nodup).2.1
  le := by
    intro n hn
    rcases h.given n (List.mem_append_right _ hn) with hn | ⟨-, hle⟩
    · exact (hj.le n hn).trans h.le
    · exact hle

theorem of_none (hj : j.Fresh) (hrows : ∀ row ∈ rows, row.placed? = none ∧ row.used? = none) :
    Labelled j j rows [] [] where
  placed_eq := List.filterMap_eq_nil_iff.mpr fun row hrow => (hrows row hrow).1
  used_eq := List.filterMap_eq_nil_iff.mpr fun row hrow => (hrows row hrow).2
  fills := fills_refl j.frames
  le := Nat.le_refl _
  nodup := hj.nodup
  given := fun _ hn => .inl hn
  used_subset := List.nil_subset _

theorem placed_gt (h : Labelled j j' rows placed used) {n : Nat} (hn : n ∈ placed) :
    n ∉ numbers j'.frames ∧ j.labels < n ∧ n ≤ j'.labels := by
  have hnot : n ∉ numbers j'.frames := fun hmem => (nodup_append.mp h.nodup).2.2 n hn n hmem rfl
  refine ⟨hnot, (h.given n (List.mem_append_left _ hn)).resolve_left fun hmem => ?_⟩
  exact hnot (h.fills.numbers_subset hmem)

theorem append (h : Labelled j j' rows placed used) (h' : Labelled j' j'' rows' placed' used') :
    Labelled j j'' (rows ++ rows') (placed ++ placed') (used ++ used') where
  placed_eq := by rw [List.filterMap_append, map_append, h.placed_eq, h'.placed_eq]
  used_eq := by rw [List.filterMap_append, map_append, h.used_eq, h'.used_eq]
  fills := h.fills.trans h'.fills
  le := h.le.trans h'.le
  nodup := by
    rw [append_assoc, nodup_append]
    refine ⟨(nodup_append.mp h.nodup).1, h'.nodup, fun n hn m hm => ?_⟩
    rintro rfl
    obtain ⟨hnot, -, hle⟩ := h.placed_gt hn
    rcases h'.given n hm with hmem | ⟨hlt, -⟩
    · exact hnot hmem
    · omega
  given := by
    have hle := h.le
    have hle' := h'.le
    have hold : ∀ n ∈ placed ++ numbers j'.frames, n ∈ numbers j.frames ∨ j.labels < n ∧ n ≤ j''.labels :=
      fun n hn => (h.given n hn).imp_right fun hn => ⟨hn.1, hn.2.trans hle'⟩
    intro n hn
    rw [append_assoc] at hn
    rcases List.mem_append.mp hn with hn | hn
    · exact hold n (List.mem_append_left _ hn)
    · rcases h'.given n hn with hn | hn
      · exact hold n (List.mem_append_right _ hn)
      · exact .inr ⟨by omega, hn.2⟩
  used_subset := by
    rw [append_assoc]
    refine append_subset.mpr ⟨List.Subset.trans h.used_subset ?_, ?_⟩
    · refine append_subset.mpr ⟨List.subset_append_left _ _, ?_⟩
      exact List.subset_append_of_subset_right _ (List.subset_append_of_subset_right _ h'.fills.numbers_subset)
    · exact List.subset_append_of_subset_right _ h'.used_subset

theorem leave (hj : j.Fresh) : Labelled j j.leave.2 [.leaves (j.leave.1.map labelLetters)] [] j.leave.1.toList := by
  rcases j.leave_cases with ⟨label, G, hlabel, hleave⟩ | ⟨hleave, -⟩ <;> rw [hleave]
  · obtain ⟨hmem, hnumbers⟩ := numbers_labelInnermost hlabel
    refine ⟨rfl, rfl, fills_labelInnermost hlabel, Nat.le_max_left _ _, ?_, ?_, by simpa using hmem⟩
    · rcases hnumbers with hnumbers | ⟨rfl, hnumbers⟩ <;> simp only [List.nil_append, hnumbers]
      · exact hj.nodup
      · exact List.nodup_cons.mpr ⟨fun h => absurd (hj.le _ h) (by omega), hj.nodup⟩
    · intro n hn
      rcases hnumbers with hnumbers | ⟨rfl, hnumbers⟩ <;> simp only [List.nil_append, hnumbers] at hn
      · exact .inl hn
      · rcases List.mem_cons.mp hn with rfl | hn
        · exact .inr ⟨Nat.lt_succ_self _, Nat.le_max_right _ _⟩
        · exact .inl hn
  · exact of_none hj (by simp [Row.placed?, Row.used?])

theorem loop {label : Option Nat}
    (h : Labelled ⟨j.labels, .loop none :: j.frames⟩ ⟨j'.labels, .loop label :: F⟩ rows placed used) :
    Labelled j ⟨j'.labels, F⟩ (.opens (label.map labelLetters) .loop :: (rows ++ [.closes]))
      (label.toList ++ placed) used := by
  have hperm : List.Perm (label.toList ++ placed ++ numbers F) (placed ++ numbers (.loop label :: F)) := by
    rw [numbers_loop, ← append_assoc]
    exact List.perm_append_comm.append_right _
  refine ⟨?_, ?_, ?_, h.le, hperm.nodup_iff.mpr h.nodup, fun n hn => h.given n (hperm.mem_iff.mp hn), ?_⟩
  · rw [map_append, ← h.placed_eq]
    cases label <;> simp [List.filterMap_cons, Row.placed?]
  · rw [← h.used_eq]
    simp [List.filterMap_cons, Row.used?]
  · exact (List.forall₂_cons.mp h.fills).2
  · exact fun n hn => hperm.mem_iff.mpr (h.used_subset hn)

end Labelled

def Labels (f : Script Reading) : Prop :=
  ∀ j, j.Fresh → ∃ placed used, Labelled j (f j).2 ((f j).1.map (·.row)) placed used

namespace Labels

variable {f g : Script Reading}
variable {r : Reading} {names : List Occurrence}

theorem nil : Labels (.lines []) := fun _ hj => ⟨[], [], .of_none hj (by simp [Script.lines])⟩

theorem line (h : r.row.placed? = none ∧ r.row.used? = none) : Labels (.lines [r]) :=
  fun _ hj => ⟨[], [], .of_none hj (List.forall_mem_singleton.mpr h)⟩

theorem append (hf : Labels f) (hg : Labels g) : Labels (f.append g) := by
  intro j hj
  obtain ⟨placed, used, h⟩ := hf j hj
  obtain ⟨placed', used', h'⟩ := hg (f j).2 (h.fresh hj)
  rw [Script.append, map_append]
  exact ⟨_, _, h.append h'⟩

theorem braced {r' : Reading} (hr : r.row.placed? = none ∧ r.row.used? = none)
    (hr' : r'.row.placed? = none ∧ r'.row.used? = none) (hf : Labels f) : Labels (f.braced r r') :=
  (line hr).append (hf.append (line hr'))

theorem chop : Labels (.chop fun label => ⟨.leaves (label.map labelLetters), names⟩) :=
  fun _ hj => ⟨_, _, .leave hj⟩

theorem loop {names' : List Occurrence} (hf : Labels f) :
    Labels (f.loop (fun frame => ⟨.opens frame.label .loop, names⟩) ⟨.closes, names'⟩) := by
  intro j hj
  obtain ⟨placed, used, h⟩ := hf ⟨j.labels, .loop none :: j.frames⟩ ⟨hj.nodup, hj.le⟩
  obtain ⟨label, F, hF, -⟩ := h.fills.of_loop
  have hlabel : (Frame.loop label).label = label.map labelLetters := by cases label <;> rfl
  refine ⟨label.toList ++ placed, used, ?_⟩
  simp only [Script.loop, hF, List.head?_cons, Option.getD_some, List.tail_cons, List.map_cons, map_append,
    List.map_nil, hlabel]
  apply Labelled.loop
  rw [← hF]
  exact h

theorem switch (hf : Labels f) : Labels f.switch := by
  intro j hj
  obtain ⟨placed, used, h⟩ := hf ⟨j.labels, .switch :: j.frames⟩ ⟨hj.nodup, hj.le⟩
  obtain ⟨F, hF, hfills⟩ := h.fills.of_switch
  obtain ⟨hplaced, hused, -, hle, hnodup, hgiven, hsubset⟩ := h
  rw [hF] at hnodup hgiven hsubset
  simp only [Script.switch, hF, List.tail_cons]
  exact ⟨placed, used, hplaced, hused, hfills, hle, hnodup, hgiven, hsubset⟩

theorem function (hf : Labels f) : Labels f.function := by
  intro j hj
  obtain ⟨placed, used, h⟩ := hf ⟨j.labels, []⟩ ⟨List.nodup_nil, by simp [numbers]⟩
  have hframes : (f ⟨j.labels, []⟩).2.frames = [] := List.forall₂_nil_left_iff.mp h.fills
  refine ⟨placed, used, h.placed_eq, h.used_eq, fills_refl _, h.le, ?_, ?_, ?_⟩
  · refine nodup_append.mpr ⟨(nodup_append.mp h.nodup).1, hj.nodup, fun n hn m hm => ?_⟩
    rintro rfl
    exact absurd (hj.le n hm) (by have := (h.placed_gt hn).2.1; dsimp only at this; omega)
  · intro n hn
    rcases List.mem_append.mp hn with hn | hn
    · exact .inr (h.placed_gt hn).2
    · exact .inl hn
  · have hused := h.used_subset
    rw [hframes] at hused
    exact fun n hn => List.mem_append_left _ (by simpa [numbers] using hused hn)

end Labels

variable (table : List Int)

mutual

theorem labels_statement (n : Node) : Labels (statementReadings table n) := by
  cases n with
  | funDecl _ _ _ _ body _ =>
    rw [statementReadings]
    exact (labels_block body).function.braced ⟨rfl, rfl⟩ ⟨rfl, rfl⟩
  | ifElse cases otherwise =>
    rw [statementReadings]
    exact ((labels_if ⟨rfl, rfl⟩ cases).append (labels_else otherwise)).append (.line ⟨rfl, rfl⟩)
  | whileLoop _ body | forLoop _ _ _ _ body _ =>
    rw [statementReadings]
    exact (labels_block body).loop
  | switch _ cases default =>
    rw [statementReadings]
    exact ((labels_cases cases).append (labels_default default)).switch.braced ⟨rfl, rfl⟩ ⟨rfl, rfl⟩
  | chop => exact .chop
  | next => exact .line ⟨rfl, rfl⟩
  | _ =>
    rw [statementReadings]
    · exact .line ⟨rfl, rfl⟩
    all_goals simp

theorem labels_statements : ∀ l : List Node, Labels (statementsReadings table l)
  | [] => .nil
  | n :: ns => (labels_statement n).append (labels_statements ns)

theorem labels_block : ∀ l : Option (List Node), Labels (blockReadings table l)
  | none => .nil
  | some ns => labels_statements ns

theorem labels_if {row : Row} (hrow : row.placed? = none ∧ row.used? = none) :
    ∀ l : List (Arm Node), Labels (ifReadings table row l)
  | [] => .nil
  | ⟨_, body⟩ :: rest =>
    (Labels.line hrow).append ((labels_block body).append (labels_if ⟨rfl, rfl⟩ rest))

theorem labels_else : ∀ l : Option (List Node), Labels (elseReadings table l)
  | none | some [] => .nil
  | some (n :: ns) =>
    (Labels.line ⟨rfl, rfl⟩).append ((labels_statement n).append (labels_statements ns))

theorem labels_cases : ∀ l : List (Arm Node), Labels (caseReadings table l)
  | [] => .nil
  | ⟨_, body⟩ :: rest =>
    (Labels.line ⟨rfl, rfl⟩).append ((labels_block body).append
      ((Labels.line ⟨rfl, rfl⟩).append (labels_cases rest)))

theorem labels_default : ∀ l : Option (List Node), Labels (defaultReadings table l)
  | none => .nil
  | some ns => (Labels.line ⟨rfl, rfl⟩).append (labels_statements ns)

end

theorem count_placed_of_used (l : Option (List Node)) {label : List Char}
    (h : label ∈ ((blockReadings table l ⟨0, []⟩).1.map (·.row)).filterMap Row.used?) :
    (((blockReadings table l ⟨0, []⟩).1.map (·.row)).filterMap Row.placed?).count label = 1 := by
  obtain ⟨placed, used, hlabels⟩ := labels_block table l ⟨0, []⟩ ⟨List.nodup_nil, by simp [numbers]⟩
  have hframes : (blockReadings table l ⟨0, []⟩).2.frames = [] := List.forall₂_nil_left_iff.mp hlabels.fills
  have hused := hlabels.used_subset
  rw [hlabels.used_eq] at h
  obtain ⟨n, hn, rfl⟩ := List.mem_map.mp h
  have hmem : n ∈ placed := by simpa [hframes, numbers] using hused hn
  rw [hlabels.placed_eq, List.count_map_of_injective _ _ labelLetters_injective]
  exact List.count_eq_one_of_mem (nodup_append.mp hlabels.nodup).1 hmem

end JavaScript

end LemonScript
