import LemonScript.Proofs.JavaScript.ReadBack
/-!
# Where jumps go

The lines of a text are followed with a stack of the blocks that are open. A jump goes to a line: the one
that opens the block it leaves, or the loop it continues. The plan of a program says from the tree alone
where its jumps have to go, and following the written text gives just that.

A loop only gets its label when a jump out of it is met, behind the line that carries the label. The
frames that the writer keeps are therefore compared with those at the end, where labels are filled in.
-/

namespace LemonScript

namespace JavaScript

/-! ### Following a text -/

structure Opened where
  line : Nat
  label : Option (List Char)
  block : Block
deriving Repr, DecidableEq

/-- The blocks that a jump may leave: those inside the innermost function. -/
def reachable (stack : List Opened) : List Opened := stack.takeWhile (·.block ≠ .function)

def Opened.isLeftBy (o : Opened) : Option (List Char) → Bool
  | none => o.block = .loop ∨ o.block = .switch
  | some label => o.label = some label

def breakTarget (stack : List Opened) (label : Option (List Char)) : Option Nat :=
  ((reachable stack).find? (·.isLeftBy label)).map (·.line)

def continueTarget (stack : List Opened) : Option Nat := ((reachable stack).find? (·.block = .loop)).map (·.line)

/-- What a line does, with the place that a jump goes to. -/
inductive Role
  | opens (block : Block)
  | reopens
  | closes
  | leaves (target : Option Nat)
  | continues (target : Option Nat)
  | plain
deriving Repr, DecidableEq

def Role.hasTarget : Role → Bool
  | leaves target | continues target => target.isSome
  | _ => true

/-- A line in a stack of open blocks. Only an open block can be closed. -/
def Row.follow (i : Nat) (stack : List Opened) : Row → Option (Role × List Opened)
  | .opens label block => some (.opens block, ⟨i, label, block⟩ :: stack)
  | .reopens =>
    match stack with
    | ⟨_, _, .plain⟩ :: rest => some (.reopens, ⟨i, none, .plain⟩ :: rest)
    | _ => none
  | .closes =>
    match stack with
    | _ :: rest => some (.closes, rest)
    | [] => none
  | .leaves label => some (.leaves (breakTarget stack label), stack)
  | .continues => some (.continues (continueTarget stack), stack)
  | .plain => some (.plain, stack)

def followAll (i : Nat) (stack : List Opened) : List Row → Option (List Role × List Opened)
  | [] => some ([], stack)
  | row :: rows =>
    (row.follow i stack).bind fun r => (followAll (i + 1) r.2 rows).map fun rs => (r.1 :: rs.1, rs.2)

variable {roles : List Role} {F G : List Frame} {fresh label : Nat}

theorem followAll_append {i : Nat} {S T : List Opened} {rows rows' : List Row}
    (h : followAll i S rows = some (roles, T)) : followAll i S (rows ++ rows') =
      (followAll (i + roles.length) T rows').map fun r => (roles ++ r.1, r.2) := by
  induction rows generalizing i S roles with
  | nil =>
    obtain ⟨rfl, rfl⟩ : [] = roles ∧ S = T := by simpa [followAll] using h
    simp
  | cons _ _ ih =>
    rw [followAll, Option.bind_eq_some_iff] at h
    obtain ⟨⟨role, S'⟩, hrow, h⟩ := h
    rw [Option.map_eq_some_iff] at h
    obtain ⟨⟨rest, T'⟩, hrest, h⟩ := h
    obtain ⟨rfl, rfl⟩ := Prod.mk.inj h
    rw [List.cons_append, followAll, hrow, Option.bind_some, ih hrest, List.length_cons, Option.map_map,
      Nat.add_assoc, Nat.add_comm 1]
    rfl

theorem followAll_braced {i : Nat} {label : Option (List Char)} {block : Block} {S : List Opened}
    {rows : List Row}
    (h : followAll (i + 1) (⟨i, label, block⟩ :: S) rows = some (roles, ⟨i, label, block⟩ :: S)) :
    followAll i S (.opens label block :: (rows ++ [.closes])) =
      some (.opens block :: (roles ++ [.closes]), S) := by
  rw [followAll, Row.follow, Option.bind_some, followAll_append h]
  rfl

/-! ### Where the jumps of a program have to go -/

/-- The lines that open the innermost loop, and the innermost loop or switch, in the same function. -/
structure Around where
  loop : Option Nat
  inner : Option Nat
deriving Repr, DecidableEq

/-- What lines have to do that start at a line, inside of loops and switches. -/
abbrev Plan := Nat → Around → List Role

namespace Plan

def line (role : Role) : Plan := fun _ _ => [role]

def append (p q : Plan) : Plan := fun i a => p i a ++ q (i + (p i a).length) a

def braced (block : Block) (inside : Nat → Around → Around) (p : Plan) : Plan := fun i a =>
  .opens block :: (p (i + 1) (inside i a) ++ [.closes])

end Plan

mutual

/-- What the lines of a statement have to do: a `chop` leaves the innermost loop around it, and a
`nextLemon` continues it. -/
def statementPlan : Node → Plan
  | .funDecl _ _ _ _ body _ => .braced .function (fun _ _ => ⟨none, none⟩) (blockPlan body)
  | .ifElse cases otherwise =>
    .append (.append (ifPlan (.opens .plain) cases) (elsePlan otherwise)) (.line .closes)
  | .whileLoop _ body => .braced .loop (fun i _ => ⟨some i, some i⟩) (blockPlan body)
  | .forLoop _ _ _ _ body _ => .braced .loop (fun i _ => ⟨some i, some i⟩) (blockPlan body)
  | .switch _ cases default =>
    .braced .switch (fun i a => ⟨a.loop, some i⟩) (.append (casePlan cases) (defaultPlan default))
  | .chop => fun _ a => [.leaves a.loop]
  | .next => fun _ a => [.continues a.loop]
  | _ => .line .plain

def statementsPlan : List Node → Plan
  | [] => fun _ _ => []
  | n :: ns => .append (statementPlan n) (statementsPlan ns)

def blockPlan : Option (List Node) → Plan
  | none => fun _ _ => []
  | some ns => statementsPlan ns

def ifPlan (role : Role) : List (Arm Node) → Plan
  | [] => fun _ _ => []
  | ⟨_, body⟩ :: rest => .append (.line role) (.append (blockPlan body) (ifPlan .reopens rest))

def elsePlan : Option (List Node) → Plan
  | none => fun _ _ => []
  | some [] => fun _ _ => []
  | some (n :: ns) => .append (.line .reopens) (.append (statementPlan n) (statementsPlan ns))

def casePlan : List (Arm Node) → Plan
  | [] => fun _ _ => []
  | ⟨_, body⟩ :: rest =>
    .append (.line .plain) (.append (blockPlan body) (.append (fun _ a => [.leaves a.inner]) (casePlan rest)))

def defaultPlan : Option (List Node) → Plan
  | none => fun _ _ => []
  | some ns => .append (.line .plain) (statementsPlan ns)

end

/-! ### Labels that are filled in -/

/-- The frame, perhaps with a label that it did not have before. -/
inductive Frame.Fills : Frame → Frame → Prop
  | refl (frame) : Fills frame frame
  | label (n) : Fills (.loop none) (.loop (some n))

theorem Frame.Fills.trans {a b c : Frame} (h : a.Fills b) (h' : b.Fills c) : a.Fills c := by
  cases h with
  | refl => exact h'
  | label n =>
    cases h' with
    | refl => exact .label n

abbrev Fills (F G : List Frame) : Prop := List.Forall₂ Frame.Fills F G

theorem fills_refl (F : List Frame) : Fills F F := List.forall₂_same.mpr fun frame _ => .refl frame

theorem Fills.trans {H : List Frame} (h : Fills F G) (h' : Fills G H) : Fills F H := by
  induction h generalizing H with
  | nil => exact h'
  | cons hframe _ ih =>
    cases h' with
    | cons hframe' h' => exact .cons (hframe.trans hframe') (ih h')

theorem labelInnermost_eq_some (h : labelInnermost fresh F = some (label, G)) :
    (∃ k F', F = .loop k :: F' ∧ G = .loop (some label) :: F' ∧ k.getD fresh = label) ∨
      ∃ F' G', F = .switch :: F' ∧ G = .switch :: G' ∧ labelInnermost fresh F' = some (label, G') := by
  unfold labelInnermost at h
  split at h
  · cases h
  · next F' =>
    cases h
    exact .inl ⟨some label, F', rfl, rfl, rfl⟩
  · next F' =>
    cases h
    exact .inl ⟨none, F', rfl, rfl, rfl⟩
  · next F' =>
    rw [Option.map_eq_some_iff] at h
    obtain ⟨⟨label', G'⟩, h, heq⟩ := h
    obtain ⟨rfl, rfl⟩ := Prod.mk.inj heq
    exact .inr ⟨F', G', rfl, rfl, h⟩

theorem Fills.of_loop (h : Fills (.loop none :: F) G) :
    ∃ label G', G = .loop label :: G' ∧ Fills F G' := by
  cases h with
  | cons hframe h => cases hframe <;> exact ⟨_, _, rfl, h⟩

theorem Fills.of_switch (h : Fills (.switch :: F) G) : ∃ G', G = .switch :: G' ∧ Fills F G' := by
  cases h with
  | cons hframe h =>
    cases hframe
    exact ⟨_, rfl, h⟩

theorem fills_labelInnermost (h : labelInnermost fresh F = some (label, G)) : Fills F G := by
  induction F generalizing G with
  | nil => cases h
  | cons frame F ih =>
    rcases labelInnermost_eq_some h with ⟨k, F', hF, rfl, rfl⟩ | ⟨F', G', hF, rfl, h'⟩
    · rw [(List.cons.inj hF).1, (List.cons.inj hF).2]
      refine .cons ?_ (fills_refl F')
      cases k with
      | none => exact .label fresh
      | some k => exact .refl _
    · rw [(List.cons.inj hF).1]
      rw [← (List.cons.inj hF).2] at h'
      exact .cons (.refl _) (ih h')

theorem Jumps.leave_cases (j : Jumps) :
    (∃ label H, labelInnermost (j.labels + 1) j.frames = some (label, H) ∧
      j.leave = (some label, ⟨max j.labels label, H⟩)) ∨ j.leave = (none, j) ∧
      ((∀ F, j.frames ≠ .switch :: F) ∨ labelInnermost (j.labels + 1) j.frames = none) := by
  unfold leave
  split
  · split
    · next label H h => exact .inl ⟨label, H, h, rfl⟩
    · next h => exact .inr ⟨rfl, .inr h⟩
  · next h => exact .inr ⟨rfl, .inl fun F hF => h F hF⟩

theorem Jumps.fills_leave (j : Jumps) : Fills j.frames j.leave.2.frames := by
  rcases j.leave_cases with ⟨label, H, h, hleave⟩ | ⟨hleave, -⟩ <;> rw [hleave]
  · exact fills_labelInnermost h
  · exact fills_refl _

/-! ### Frames and open blocks -/

/-- The open blocks inside the innermost function are the frames, with plain blocks between them. -/
inductive Matches : List Frame → Around → List Opened → Prop
  | top : Matches [] ⟨none, none⟩ []
  | function (i S) : Matches [] ⟨none, none⟩ (⟨i, none, .function⟩ :: S)
  | plain (i) {F a S} (h : Matches F a S) : Matches F a (⟨i, none, .plain⟩ :: S)
  | loop (i label) {F a S} (h : Matches F a S) :
    Matches (.loop label :: F) ⟨some i, some i⟩ (⟨i, (Frame.loop label).label, .loop⟩ :: S)
  | switch (i) {F a S} (h : Matches F a S) :
    Matches (.switch :: F) ⟨a.loop, some i⟩ (⟨i, none, .switch⟩ :: S)

namespace Matches

variable {F G : List Frame} {a : Around} {S : List Opened}

theorem breakTarget_none (h : Matches F a S) : breakTarget S none = a.inner := by
  induction h with
  | top | function | loop | switch => rfl
  | plain i _ ih => exact ih

theorem continueTarget_eq (h : Matches F a S) : continueTarget S = a.loop := by
  induction h with
  | top | function | loop => rfl
  | plain i _ ih | switch i _ ih => exact ih

/-- A jump with the label of the innermost loop leaves that loop, since the blocks inside of it have no
labels. -/
theorem breakTarget_label (h : Matches G a S) {H : List Frame}
    (hlabel : labelInnermost fresh F = some (label, H)) (hfills : Fills H G) :
    breakTarget S (some (labelLetters label)) = a.loop := by
  induction h generalizing F H with
  | top | function =>
    cases hfills
    rcases labelInnermost_eq_some hlabel with ⟨_, _, _, hH, _⟩ | ⟨_, _, _, hH, _⟩ <;> cases hH
  | plain i _ ih => exact ih hlabel hfills
  | loop =>
    rcases labelInnermost_eq_some hlabel with ⟨_, _, _, rfl, _⟩ | ⟨_, _, _, rfl, _⟩
    · cases hfills with
      | cons hframe _ =>
        cases hframe
        simp [breakTarget, reachable, Opened.isLeftBy, Frame.label]
    · cases hfills with
      | cons hframe _ => cases hframe
  | switch i _ ih =>
    rcases labelInnermost_eq_some hlabel with ⟨_, _, _, rfl, _⟩ | ⟨_, _, _, rfl, hlabel'⟩
    · cases hfills with
      | cons hframe _ => cases hframe
    · cases hfills with
      | cons _ hfills' => exact ih hlabel' hfills'

theorem labelInnermost_ne_none (h : Matches G a S) (hfills : Fills F G) (hloop : a.loop.isSome)
    (fresh : Nat) : labelInnermost fresh F ≠ none := by
  induction h generalizing F with
  | top | function => cases hloop
  | plain i _ ih => exact ih hfills hloop
  | loop _ label =>
    cases hfills with
    | cons hframe _ =>
      cases hframe with
      | refl => cases label <;> simp [labelInnermost]
      | label n => simp [labelInnermost]
  | switch i _ ih =>
    cases hfills with
    | cons hframe hfills =>
      cases hframe
      simpa [labelInnermost] using ih hfills hloop

theorem inner_eq_loop (h : Matches G a S) (hfills : Fills F G) (hswitch : ∀ F', F ≠ .switch :: F') :
    a.inner = a.loop := by
  induction h with
  | top | function | loop => rfl
  | plain i _ ih => exact ih hfills
  | switch i _ =>
    cases hfills with
    | cons hframe _ =>
      cases hframe
      exact absurd rfl (hswitch _)

theorem breakTarget_leave (h : Matches G a S) (j : Jumps) (hfills : Fills j.leave.2.frames G)
    (hloop : a.loop.isSome) : breakTarget S (j.leave.1.map labelLetters) = a.loop := by
  rcases j.leave_cases with ⟨label, H, hlabel, hleave⟩ | ⟨hleave, hnone⟩ <;> rw [hleave] at hfills ⊢
  · exact h.breakTarget_label hlabel hfills
  · rcases hnone with hswitch | hnone
    · exact h.breakTarget_none.trans (h.inner_eq_loop hfills hswitch)
    · exact absurd hnone (h.labelInnermost_ne_none hfills hloop _)

end Matches

/-! ### Following what is written -/

def Stands (arm : Bool) (S T : List Opened) : Prop :=
  if arm then ∃ k, T = ⟨k, none, .plain⟩ :: S else T = S

/-- However its lines are labelled in the end, the script does what is planned, at the places that are
meant. It may start and end in an arm of an `if`, and otherwise leaves the open blocks as they are. -/
def Plans (place : Around → Prop) (before after : Bool) (f : Script Reading) (p : Plan) : Prop :=
  ∀ j, Fills j.frames (f j).2.frames ∧ ∀ F a S T i, Fills (f j).2.frames F → Matches F a S →
    place a → Stands before S T → ∃ T', Stands after S T' ∧
      followAll i T ((f j).1.map (·.row)) = some (p i a, T') ∧ ∀ role ∈ p i a, role.hasTarget = true

abbrev Executes (inLoop : Prop) (f : Script Reading) (p : Plan) : Prop :=
  Plans (fun a => inLoop → a.loop.isSome = true) false false f p

/-- The script of clauses of a switch. -/
abbrev Selects (inLoop : Prop) (f : Script Reading) (p : Plan) : Prop :=
  Plans (fun a => (inLoop → a.loop.isSome = true) ∧ a.inner.isSome = true) false false f p

namespace Plans

variable {place place' : Around → Prop} {before between after : Bool} {inLoop : Prop}
  {f g : Script Reading} {p q : Plan} {names names' : List Occurrence}

theorem mono (h : ∀ a, place' a → place a) (hf : Plans place before after f p) : Plans place' before after f p := by
  intro j
  obtain ⟨hfills, hf⟩ := hf j
  exact ⟨hfills, fun F a S T i hF hS ha => hf F a S T i hF hS (h a ha)⟩

theorem nil (arm : Bool) : Plans place arm arm (.lines []) (fun _ _ => []) :=
  fun j => ⟨fills_refl j.frames, fun _ _ _ T _ _ _ _ hT => ⟨T, hT, rfl, by simp⟩⟩

theorem append (hf : Plans place before between f p) (hg : Plans place between after g q) :
    Plans place before after (f.append g) (p.append q) := by
  intro j
  obtain ⟨hfills, hf⟩ := hf j
  obtain ⟨hfills', hg⟩ := hg (f j).2
  refine ⟨hfills.trans hfills', fun F a S T i hF hS ha hT => ?_⟩
  obtain ⟨T', hT', hfirst, htargets⟩ := hf F a S T i (hfills'.trans hF) hS ha hT
  obtain ⟨T'', hT'', hsecond, htargets'⟩ := hg F a S T' (i + (p i a).length) hF hS ha hT'
  refine ⟨T'', hT'', ?_, List.forall_mem_append.mpr ⟨htargets, htargets'⟩⟩
  rw [Script.append, List.map_append, followAll_append hfirst, hsecond]
  rfl

theorem line {row : Row} {role : Around → Role}
    (h : ∀ {F a S T}, Matches F a S → place a → Stands before S T → ∀ i, ∃ T', Stands after S T' ∧
      row.follow i T = some (role a, T') ∧ (role a).hasTarget) :
    Plans place before after (.lines [⟨row, names⟩]) (fun _ a => [role a]) := by
  refine fun j => ⟨fills_refl j.frames, fun F a S T i _ hS ha hT => ?_⟩
  obtain ⟨T', hT', hrow, htarget⟩ := h hS ha hT i
  refine ⟨T', hT', ?_, by simpa using htarget⟩
  change followAll i T [row] = _
  rw [followAll, hrow]
  rfl

theorem opens : Plans place false true (.lines [⟨.opens none .plain, names⟩]) (.line (.opens .plain)) :=
  line fun _ _ hT i => ⟨_, ⟨i, congrArg _ hT⟩, rfl, rfl⟩

theorem reopens : Plans place true true (.lines [⟨.reopens, names⟩]) (.line .reopens) := by
  refine line fun _ _ hT i => ?_
  obtain ⟨k, rfl⟩ := hT
  exact ⟨_, ⟨i, rfl⟩, rfl, rfl⟩

theorem closes : Plans place true false (.lines [⟨.closes, names⟩]) (.line .closes) := by
  refine line fun _ _ hT i => ?_
  obtain ⟨k, rfl⟩ := hT
  exact ⟨_, rfl, rfl, rfl⟩

theorem inArm (hf : Plans place false false f p) : Plans place true true f p := by
  intro j
  obtain ⟨hfills, hf⟩ := hf j
  refine ⟨hfills, fun F a S T i hF hS ha hT => ?_⟩
  obtain ⟨k, rfl⟩ := hT
  obtain ⟨T', rfl, hrows⟩ := hf F a _ _ i hF (hS.plain k) ha rfl
  exact ⟨_, ⟨k, rfl⟩, hrows⟩

theorem plain : Plans place false false (.lines [⟨.plain, names⟩]) (.line .plain) :=
  line fun _ _ hT _ => ⟨_, hT, rfl, rfl⟩

theorem continues (h : inLoop) :
    Executes inLoop (.lines [⟨.continues, names⟩]) (fun _ a => [.continues a.loop]) := by
  refine line fun hS ha hT _ => ⟨_, hT, ?_, ha h⟩
  rw [← hS.continueTarget_eq, ← show _ = _ from hT]
  rfl

theorem leaves : Selects inLoop (.lines [⟨.leaves none, names⟩]) (fun _ a => [.leaves a.inner]) := by
  refine line fun hS ha hT _ => ⟨_, hT, ?_, ha.2⟩
  rw [← hS.breakTarget_none, ← show _ = _ from hT]
  rfl

/-- A `chop` right inside the loop needs no label, and one inside a switch is given the label of the
loop. -/
theorem chop (h : inLoop) : Executes inLoop (.chop fun label =>
    ⟨.leaves (label.map labelLetters), names⟩) (fun _ a => [.leaves a.loop]) := by
  refine fun j => ⟨j.fills_leave, fun F a S T i hF hS ha hT => ⟨T, hT, ?_, List.forall_mem_singleton.mpr (ha h)⟩⟩
  obtain rfl : T = S := hT
  have htarget := hS.breakTarget_leave j hF (ha h)
  change followAll i T [.leaves (j.leave.1.map labelLetters)] = some ([.leaves a.loop], T)
  rw [followAll, Row.follow, htarget]
  rfl

theorem hasTarget_braced (h : ∀ role ∈ roles, role.hasTarget) (block : Block) :
    ∀ role ∈ .opens block :: (roles ++ [.closes]), role.hasTarget := by
  simpa [Role.hasTarget, or_imp, forall_and] using h

theorem loop (hf : Executes True f p) : Executes inLoop
    (f.loop (fun frame => ⟨.opens frame.label .loop, names⟩) ⟨.closes, names'⟩)
    (p.braced .loop fun i _ => ⟨some i, some i⟩) := by
  intro j
  obtain ⟨hfills, hf⟩ := hf ⟨j.labels, .loop none :: j.frames⟩
  obtain ⟨label, F', hF', hfills⟩ := hfills.of_loop
  simp only [Script.loop, hF', List.map_cons, List.map_append, List.map_nil, List.head?_cons, Option.getD_some,
    List.tail_cons]
  refine ⟨hfills, fun F a S T i hF hS _ hT => ?_⟩
  obtain rfl : T = S := hT
  have hbody : Fills (f ⟨j.labels, .loop none :: j.frames⟩).2.frames (.loop label :: F) := by
    rw [hF']
    exact .cons (.refl _) hF
  obtain ⟨T', rfl, hrows, htargets⟩ := hf _ _ _ _ (i + 1) hbody (hS.loop i label) (fun _ => rfl) rfl
  exact ⟨T, rfl, followAll_braced hrows, hasTarget_braced htargets .loop⟩

theorem switch (hf : Selects inLoop f p) : Executes inLoop
    (f.switch.braced ⟨.opens none .switch, names⟩ ⟨.closes, names'⟩)
    (p.braced .switch fun i a => ⟨a.loop, some i⟩) := by
  intro j
  obtain ⟨hfills, hf⟩ := hf ⟨j.labels, .switch :: j.frames⟩
  obtain ⟨F', hF', hfills⟩ := hfills.of_switch
  simp only [Script.braced, Script.append, Script.lines, Script.switch, hF', List.map_append, List.map_cons,
    List.map_nil, List.singleton_append, List.tail_cons]
  refine ⟨hfills, fun F a S T i hF hS ha hT => ?_⟩
  obtain rfl : T = S := hT
  have hbody : Fills (f ⟨j.labels, .switch :: j.frames⟩).2.frames (.switch :: F) := by
    rw [hF']
    exact .cons (.refl _) hF
  obtain ⟨T', rfl, hrows, htargets⟩ := hf _ _ _ _ (i + 1) hbody (hS.switch i) ⟨ha, rfl⟩ rfl
  exact ⟨T, rfl, followAll_braced hrows, hasTarget_braced htargets .switch⟩

theorem function (hf : Executes False f p) : Executes inLoop
    (f.function.braced ⟨.opens none .function, names⟩ ⟨.closes, names'⟩)
    (p.braced .function fun _ _ => ⟨none, none⟩) := by
  intro j
  obtain ⟨hfills, hf⟩ := hf ⟨j.labels, []⟩
  simp only [Script.braced, Script.append, Script.lines, Script.function, List.map_append, List.map_cons,
    List.map_nil, List.singleton_append]
  refine ⟨fills_refl _, fun F a S T i _ _ _ hT => ?_⟩
  have hbody : Fills (f ⟨j.labels, []⟩).2.frames [] := by
    rw [List.forall₂_nil_left_iff.mp hfills]
    exact .nil
  obtain ⟨T', rfl, hrows, htargets⟩ := hf _ _ _ _ (i + 1) hbody (.function i T) False.elim rfl
  exact ⟨T, hT, followAll_braced hrows, hasTarget_braced htargets .function⟩

end Plans

theorem Executes.selects {inLoop : Prop} {f : Script Reading} {p : Plan} (h : Executes inLoop f p) :
    Selects inLoop f p :=
  h.mono fun _ => And.left

theorem inLoop_behind (Γ : Site) (n : Node) : (Γ.behind n).inLoop = Γ.inLoop := by
  unfold Site.behind
  split <;> rfl

variable {table : List Int} {E : Vocabulary}

mutual

theorem executes_statement {Γ : Site} {n : Node} (h : Scoped.Statement Γ n) (hn : Vocabulary.Tree E n) :
    Executes Γ.inLoop (statementReadings table n) (statementPlan n) := by
  cases n with
  | funDecl =>
    obtain ⟨f, rfl, hparams, hbody⟩ := h
    rw [statementReadings, statementPlan]
    exact (executes_block hbody hn.2.2).function
  | ifElse =>
    rw [statementReadings, statementPlan]
    exact ((plans_if hn.1 h.1 hn.2.1).append (plans_else h.2 hn.2.2)).append .closes
  | whileLoop =>
    rw [statementReadings, statementPlan]
    exact (executes_block (Γ := Γ.loop) h.2 hn.2).loop
  | forLoop =>
    obtain ⟨v, rfl, hinit, hcondition, hstep, hbody⟩ := h
    rw [statementReadings, statementPlan]
    exact (executes_block hbody hn.2.2.2.2).loop
  | switch =>
    rw [statementReadings, statementPlan]
    exact ((selects_cases h.2.1 hn.2.1).append (executes_default h.2.2 hn.2.2).selects).switch
  | chop => exact .chop h
  | next => exact .continues h
  | _ =>
    rw [statementReadings, statementPlan]
    · exact .plain
    all_goals simp

theorem executes_statements {Γ : Site} : ∀ {l : List Node}, Scoped.Statements Γ l → Vocabulary.Trees E l →
    Executes Γ.inLoop (statementsReadings table l) (statementsPlan l)
  | [], _, _ => .nil false
  | n :: ns, h, hl => by
    have hrest := executes_statements h.2 hl.2
    rw [inLoop_behind] at hrest
    exact (executes_statement h.1 hl.1).append hrest

theorem executes_block {Γ : Site} : ∀ {l : Option (List Node)}, Scoped.Block Γ l → Vocabulary.Optional E l →
    Executes Γ.inLoop (blockReadings table l) (blockPlan l)
  | none, _, _ => .nil false
  | some ns, h, hl => executes_statements (l := ns) h hl

theorem plans_if {Γ : Site} : ∀ {l : List (Arm Node)}, l ≠ [] → Scoped.Arms Γ l → Vocabulary.Arms E l →
    Plans (fun a => Γ.inLoop → a.loop.isSome) false true (ifReadings table (.opens none .plain) l)
      (ifPlan (.opens .plain) l)
  | [], hne, _, _ => absurd rfl hne
  | ⟨_, _⟩ :: _, _, h, hl =>
    Plans.opens.append ((executes_block h.2.1 hl.2.1).inArm.append (plans_elseIf h.2.2 hl.2.2))

theorem plans_elseIf {Γ : Site} : ∀ {l : List (Arm Node)}, Scoped.Arms Γ l → Vocabulary.Arms E l →
    Plans (fun a => Γ.inLoop → a.loop.isSome) true true (ifReadings table .reopens l)
      (ifPlan .reopens l)
  | [], _, _ => .nil true
  | ⟨_, _⟩ :: _, h, hl =>
    Plans.reopens.append ((executes_block h.2.1 hl.2.1).inArm.append (plans_elseIf h.2.2 hl.2.2))

theorem plans_else {Γ : Site} : ∀ {l : Option (List Node)}, Scoped.Block Γ l → Vocabulary.Optional E l →
    Plans (fun a => Γ.inLoop → a.loop.isSome) true true (elseReadings table l) (elsePlan l)
  | none, _, _ | some [], _, _ => .nil true
  | some (n :: ns), h, hl => by
    have hrest := executes_statements h.2 hl.2
    rw [inLoop_behind] at hrest
    exact Plans.reopens.append ((executes_statement h.1 hl.1).append hrest).inArm

theorem selects_cases {Γ : Site} : ∀ {l : List (Arm Node)}, Scoped.Arms Γ l → Vocabulary.Arms E l →
    Selects Γ.inLoop (caseReadings table l) (casePlan l)
  | [], _, _ => .nil false
  | ⟨_, _⟩ :: _, h, hl =>
    Plans.plain.append ((executes_block h.2.1 hl.2.1).selects.append
      (Plans.leaves.append (selects_cases h.2.2 hl.2.2)))

theorem executes_default {Γ : Site} : ∀ {l : Option (List Node)}, Scoped.Block Γ l →
    Vocabulary.Optional E l → Executes Γ.inLoop (defaultReadings table l) (defaultPlan l)
  | none, _, _ => .nil false
  | some ns, h, hl => Plans.plain.append (executes_statements (l := ns) h hl)

end

end JavaScript

end LemonScript
