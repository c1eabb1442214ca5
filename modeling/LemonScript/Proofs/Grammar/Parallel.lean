import LemonScript.Proofs.Grammar.Likeness
/-!
# Two runs side by side

Two runs of the grammar whose states correspond to each other all the way. Such a correspondence has to
be kept by going back to corresponding places and by asking for a token, and then all rules end alike
in corresponding states: both match with the same value, or both fail, or the same reason ends both,
unless one of the runs is nested too deeply.
-/

namespace LemonScript

open Rule

/-- The outcomes of two runs whose states are related by `S`. -/
inductive Outcome.Parallel {α : Type} (S : ParseState → ParseState → Prop) :
    Outcome α → Outcome α → Prop
  | matched (a : α) {s s' : ParseState} (h : S s s') : Parallel S (.matched a s) (.matched a s')
  | failed {s s' : ParseState} (h : S s s') : Parallel S (.failed s) (.failed s')
  | aborted (reason : Abort) : Parallel S (.aborted reason) (.aborted reason)
  | tooDeep_left (o : Outcome α) : Parallel S (.aborted .tooDeep) o
  | tooDeep_right (o : Outcome α) : Parallel S o (.aborted .tooDeep)

/-- Which states and which places of two runs correspond to each other. -/
structure Correspondence where
  State : ParseState → ParseState → Prop
  Place : Cursor → Cursor → Prop
  cursor {s s' : ParseState} : State s s' → Place s.cursor s'.cursor
  reset {s s' : ParseState} {c c' : Cursor} :
    State s s' → Place c c' → State (s.reset c) (s'.reset c')
  asked {β γ : Type} {view : β → γ} {f : Scanner → β × Scanner} {s s' : ParseState} :
    Scanner.Question view f → State s s' →
    view (f s.scanner).1 = view (f s'.scanner).1 ∧
      State { s with scanner := (f s.scanner).2 } { s' with scanner := (f s'.scanner).2 }

namespace Correspondence

variable (C : Correspondence) {α β γ : Type}

/-- From corresponding states both rules end in the same way. -/
def Parallel (r r' : Rule α) : Prop :=
  ∀ s s' : ParseState, C.State s s' → Outcome.Parallel C.State (r s) (r' s')

variable {C}

theorem Parallel.after {r r' : Rule α} {hit hit' : α → Rule β} {miss miss' : Rule β}
    (hr : C.Parallel r r') (hhit : ∀ a, C.Parallel (hit a) (hit' a)) (hmiss : C.Parallel miss miss') :
    C.Parallel (after r hit miss) (after r' hit' miss') := by
  intro s s' hs
  have hrun := hr s s' hs
  unfold Rule.after
  generalize r s = o at hrun
  generalize r' s' = o' at hrun
  cases hrun with
  | matched a h => exact hhit a _ _ h
  | failed h => exact hmiss _ _ h
  | aborted reason => exact .aborted reason
  | tooDeep_left => exact .tooDeep_left _
  | tooDeep_right => exact .tooDeep_right _

theorem parallel_ofTest {f : Scanner → Bool × Scanner} (hf : Scanner.Question id f) :
    C.Parallel (ofTest f) (ofTest f) := by
  intro s s' hs
  obtain ⟨hanswer, hasked⟩ := C.asked hf hs
  unfold ofTest
  rcases hfs : f s.scanner with ⟨b, scanner⟩
  rcases hfs' : f s'.scanner with ⟨b', scanner'⟩
  rw [hfs, hfs'] at hanswer hasked
  obtain rfl : b = b' := hanswer
  cases b with
  | true => exact .matched () hasked
  | false => exact .failed hasked

theorem parallel_ofScan {view : α → γ} {f : Scanner → Option α × Scanner}
    (hf : Scanner.Question (Option.map view) f) {h h' : α → Rule β}
    (hh : ∀ a a', view a = view a' → C.Parallel (h a) (h' a')) :
    C.Parallel (ofScan f >>= h) (ofScan f >>= h') := by
  intro s s' hs
  obtain ⟨hanswer, hasked⟩ := C.asked hf hs
  change Outcome.Parallel C.State (Rule.bind (ofScan f) h s) (Rule.bind (ofScan f) h' s')
  unfold Rule.bind ofScan
  rcases hfs : f s.scanner with ⟨a, scanner⟩
  rcases hfs' : f s'.scanner with ⟨a', scanner'⟩
  rw [hfs, hfs'] at hanswer hasked
  cases a with
  | none =>
    cases a' with
    | none => exact .failed hasked
    | some a' => cases hanswer
  | some a =>
    cases a' with
    | none => cases hanswer
    | some a' => exact hh a a' (Option.some.inj hanswer) _ _ hasked

/-- The likeness of rules that run side by side. -/
def likeness (C : Correspondence) : Likeness where
  Alike := C.Parallel
  Place := C.Place
  alike_pure a := fun _ _ hs => .matched a hs
  alike_fail := fun _ _ hs => .failed hs
  alike_abort reason := fun _ _ _ => .aborted reason
  tooDeep_left _ := fun _ _ _ => .tooDeep_left _
  tooDeep_right _ := fun _ _ _ => .tooDeep_right _
  alike_after := Parallel.after
  alike_mark hf := fun s s' hs => hf _ _ (C.cursor hs) s s' hs
  alike_failTo hc := fun _ _ hs => .failed (C.reset hs hc)
  alike_test hf := parallel_ofTest hf.question
  alike_scan hf hh := parallel_ofScan hf.question hh

def same : Correspondence where
  State := Eq
  Place := Eq
  cursor h := congrArg ParseState.cursor h
  reset h hc := by rw [h, hc]
  asked _ h := by
    subst h
    exact ⟨rfl, rfl⟩

end Correspondence

theorem Outcome.Parallel.eq {α : Type} {o o' : Outcome α} (h : Outcome.Parallel Eq o o')
    (ho : o ≠ .aborted .tooDeep) (ho' : o' ≠ .aborted .tooDeep) : o = o' := by
  cases h with
  | matched a h => rw [h]
  | failed h => rw [h]
  | aborted => rfl
  | tooDeep_left => exact absurd rfl ho
  | tooDeep_right => exact absurd rfl ho'

namespace Grammar

open Correspondence

theorem parallel_reference {g g' : Rules} (hg : g.Alike same.likeness g') :
    same.Parallel (reference g) (reference g') := by
  rintro s _ rfl
  unfold reference
  dsimp only
  split
  · exact .matched _ rfl
  · exact .failed rfl
  · have hrun : Outcome.Parallel Eq (accessors g s) (accessors g' s) := alike_accessors hg s s rfl
    generalize accessors g s = o at hrun
    generalize accessors g' s = o' at hrun
    cases hrun with
    | matched a h =>
      subst h
      exact .matched a rfl
    | failed h =>
      subst h
      exact .failed rfl
    | aborted reason => exact .aborted reason
    | tooDeep_left => exact .tooDeep_left _
    | tooDeep_right => exact .tooDeep_right _

end Grammar

/-! ### Results -/

def Outcome.result : Outcome Program → Except ParseError Program
  | .matched p _ => .ok p
  | .failed s => .error (.syntactic s.scanner.error)
  | .aborted reason => .error (.aborted reason)

theorem Grammar.parseFrom_eq_result (s : ParseState) : parseFrom s =
    (program (rules (s.scanner.source.length + 2) (s.scanner.source.length + 2)) s).result := by
  unfold parseFrom
  dsimp only
  cases program (rules (s.scanner.source.length + 2) (s.scanner.source.length + 2)) s <;> rfl

end LemonScript
