import LemonScript.Proofs.Semantics.Frame
import LemonScript.Proofs.Typing.Literal
/-!
# Keys of map literals

A map literal is rejected if two of its keys are the same. Literals that are the same have the same value. A
variable that is a key twice has the same value both times, unless it is changed while what stands between
the two keys is evaluated: something is called there, and some function assigns to the variable. Literals of
equal value are the same, so no literal with two such keys is accepted.
-/

namespace LemonScript

open Analysis Semantics

/-! ### Keys that are the same -/

theorem exists_of_not_pairwise {α : Type} {R : α → α → Prop} {l : List α}
    (h : ¬ l.Pairwise fun a b => ¬ R a b) :
    ∃ before a between b after, l = before ++ a :: (between ++ b :: after) ∧ R a b := by
  induction l with
  | nil => exact absurd .nil h
  | cons a l ih =>
    by_cases hmem : ∃ b ∈ l, R a b
    · obtain ⟨b, hb, hab⟩ := hmem
      obtain ⟨between, after, rfl⟩ := List.append_of_mem hb
      exact ⟨[], a, between, b, after, rfl, hab⟩
    · have hrest : ¬ l.Pairwise fun a b => ¬ R a b := fun hrest =>
        h (List.pairwise_cons.mpr ⟨fun b hb hab => hmem ⟨b, hb, hab⟩, hrest⟩)
      obtain ⟨before, a', between, b, after, rfl, hab⟩ := ih hrest
      exact ⟨a :: before, a', between, b, after, rfl, hab⟩

theorem exists_sameKey {entries : List (Entry Node)}
    (h : distinct ((entries.map (·.key)).filterMap keyPrint?) = false) :
    ∃ before e between e' after, entries = before ++ e :: (between ++ e' :: after) ∧ SameKey e.key e'.key := by
  rw [← Bool.not_eq_true, distinct_keys_iff, List.pairwise_map] at h
  exact exists_of_not_pairwise h

theorem distinct_of_sameKey {before between after : List (Entry Node)} {e e' : Entry Node}
    (h : SameKey e.key e'.key) :
    distinct (((before ++ e :: (between ++ e' :: after)).map (·.key)).filterMap keyPrint?) = false := by
  rw [← Bool.not_eq_true, distinct_keys_iff, List.pairwise_map]
  intro hpairwise
  exact (List.pairwise_cons.mp (List.pairwise_append.mp hpairwise).2.1).1 e' (by simp) h

theorem distinct_of_mapLiteral {entries : List (Entry Node)} {scope : Scope}
    (h : mapLiteral entries scope = .error (.semantic .repeatedKey)) :
    distinct ((entries.map (·.key)).filterMap keyPrint?) = false := by
  cases entries with
  | nil => cases h
  | cons =>
    simp only [mapLiteral, uniform, List.map_cons, distinctKeys, require] at h ⊢
    split at h
    · split at h
      · split at h
        · cases h
        · next hdistinct => simpa using hdistinct
      · cases h
    · cases h

/-! ### Evaluation from left to right -/

section Evaluation

variable {call : Calls} {env : Env} {s t : State}

theorem evalEntries_append_eq_ok {es es' : List (Entry Node)} {xs : List (Value × Value)}
    (h : evalEntries call env (es ++ es') s = .ok (xs, t)) :
    ∃ ys u zs, evalEntries call env es s = .ok (ys, u) ∧ evalEntries call env es' u = .ok (zs, t) ∧
      xs = ys ++ zs ∧ ys.length = es.length := by
  induction es generalizing s xs with
  | nil => exact ⟨[], s, xs, rfl, h, rfl, rfl⟩
  | cons e es ih =>
    obtain ⟨k, u₁, hk, h⟩ := bind_eq_ok h
    obtain ⟨x, u₂, hx, h⟩ := bind_eq_ok h
    obtain ⟨rest, u₃, hrest, h⟩ := bind_eq_ok h
    obtain ⟨rfl, rfl⟩ := pure_eq_ok h
    obtain ⟨ys, u, zs, hys, hzs, rfl, hlength⟩ := ih hrest
    refine ⟨(k, x) :: ys, u, zs, ?_, hzs, rfl, congrArg (· + 1) hlength⟩
    change (eval call env e.key >>= _) s = _
    rw [bind_of_ok hk, bind_of_ok hx, bind_of_ok hys]
    rfl

theorem evalEntries_cons_eq_ok {e : Entry Node} {es : List (Entry Node)} {xs : List (Value × Value)}
    (h : evalEntries call env (e :: es) s = .ok (xs, t)) :
    ∃ k u x w zs, eval call env e.key s = .ok (k, u) ∧ eval call env e.value u = .ok (x, w) ∧
      evalEntries call env es w = .ok (zs, t) ∧ xs = (k, x) :: zs := by
  obtain ⟨k, u, hk, h⟩ := bind_eq_ok h
  obtain ⟨x, w, hx, h⟩ := bind_eq_ok h
  obtain ⟨zs, t', hzs, h⟩ := bind_eq_ok h
  obtain ⟨rfl, rfl⟩ := pure_eq_ok h
  exact ⟨k, u, x, w, zs, hk, hx, hzs, rfl⟩

/-- A variable has the value that is in memory, if it is not the constant of the library. -/
theorem eval_var_eq_ok {v : Variable} {k : Value} (h : eval call env (.var v) s = .ok (k, t)) :
    (v.id == Library.pi.id) ∧ k = .float 3.141592653589793 ∧ t = s ∨
      ∃ a, (v.id == Library.pi.id) = false ∧ env.lookup v.id = some a ∧ s.memory[a]? = some (.var k) ∧ t = s := by
  simp only [eval] at h
  split at h
  · next hpi =>
    obtain ⟨rfl, rfl⟩ := pure_eq_ok h
    exact .inl ⟨hpi, rfl, rfl⟩
  · next hpi =>
    obtain ⟨a, u, ha, hread⟩ := bind_eq_ok h
    obtain ⟨hlookup, rfl⟩ := addressOf_eq_ok ha
    obtain ⟨hcell, rfl⟩ := readVar_eq_ok hread
    exact .inr ⟨a, by simpa using hpi, hlookup, hcell, rfl⟩

theorem state_of_var {v : Variable} {k : Value} (h : eval call env (.var v) s = .ok (k, t)) : s = t := by
  rcases eval_var_eq_ok h with ⟨-, -, rfl⟩ | ⟨-, -, -, -, rfl⟩ <;> rfl

theorem eval_var_congr {v v' : Variable} (h : v'.id = v.id) : eval call env (.var v') = eval call env (.var v) := by
  simp only [eval, h]

theorem eq_of_unchanged {v : Variable} {u u' : State} {k k' : Value} (hk : eval call env (.var v) s = .ok (k, u))
    (hk' : eval call env (.var v) t = .ok (k', u'))
    (h : ∀ a, env.lookup v.id = some a → s.memory[a]? = some (.var k) → t.memory[a]? = some (.var k)) : k' = k := by
  rcases eval_var_eq_ok hk with ⟨hpi, rfl, -⟩ | ⟨a, hpi, ha, hcell, -⟩
  · rcases eval_var_eq_ok hk' with ⟨-, rfl, -⟩ | ⟨a', hpi', -⟩
    · rfl
    · rw [hpi] at hpi'
      cases hpi'
  · rcases eval_var_eq_ok hk' with ⟨hpi', -⟩ | ⟨a', -, ha', hcell', -⟩
    · rw [hpi] at hpi'
      cases hpi'
    · obtain rfl : a' = a := Option.some.inj (ha'.symm.trans ha)
      rw [h a' ha hcell] at hcell'
      cases hcell'
      rfl

end Evaluation

/-! ### Variables that may change -/

def Assigned (env : Env) (s : State) (v : Variable) : Prop :=
  ∃ a code closed, env.lookup v.id = some a ∧ Cell.closure code closed ∈ s.memory ∧
    ∃ n ∈ code.body.getD [], ¬ Spares a closed n

/-- The key is a variable, something is called after it is evaluated and before the key behind `between` is,
and some function in memory assigns to it. -/
def MayChange (env : Env) (s : State) (e : Entry Node) (between : List (Entry Node)) : Prop :=
  ∃ v, e.key = .var v ∧ (∃ n ∈ e.value :: between.flatMap Entry.children, n.HasCall) ∧ Assigned env s v

/-- If the key is a variable, its cell holds one. -/
def HasVariable (env : Env) (s : State) (e : Entry Node) : Prop :=
  ∀ v a, e.key = .var v → env.lookup v.id = some a → ∃ x, s.memory[a]? = some (.var x)

section Variables

variable {fuel : Nat} {env : Env} {s t t' u u₁ u₂ : State} {v : Variable} {k k' x : Value} {value : Node}
  {before between : List (Entry Node)} {ys zs : List (Value × Value)}
  (hk : eval (callAt fuel) env (.var v) u = .ok (k, u₁)) (hx : eval (callAt fuel) env value u₁ = .ok (x, u₂))
  (hzs : evalEntries (callAt fuel) env between u₂ = .ok (zs, t))
  (hk' : eval (callAt fuel) env (.var v) t = .ok (k', t'))

include hk hx hzs hk'

theorem eq_of_no_call (hcalls : ¬ ∃ n ∈ value :: between.flatMap Entry.children, n.HasCall) : k' = k := by
  refine eq_of_unchanged hk hk' fun a ha hcell => ?_
  have hleaves : ∀ n ∈ value :: between.flatMap Entry.children, Leaves False a k (eval (callAt fuel) env n) :=
    fun n hn => leaves_eval fun hcall => absurd ⟨n, hn, hcall⟩ hcalls
  obtain ⟨hvalue, hbetween⟩ := List.forall_mem_cons.mp hleaves
  obtain rfl := state_of_var hk
  have hheld : Held False a k u := ⟨hcell, False.elim⟩
  exact (compositional_leaves.evalEntries hbetween (hvalue hheld hx).1 hzs).1.cell

/-- A variable that no function assigns to has the same value twice, whatever is called. -/
theorem eq_of_not_assigned (hvar : ∀ a, env.lookup v.id = some a → ∃ x, s.memory[a]? = some (.var x))
    (hassigned : ¬ Assigned env s v) (hys : evalEntries (callAt fuel) env before s = .ok (ys, u)) : k' = k := by
  refine eq_of_unchanged hk hk' fun a ha hcell => ?_
  have hleaves {y : Value} (n : Node) : Leaves True a y (eval (callAt fuel) env n) :=
    leaves_eval fun _ => leaves_callAt trivial fuel
  obtain ⟨y, hy⟩ := hvar a ha
  have hheld : Held True a y s := by
    refine ⟨hy, fun _ code closed hclosure n hn => ?_⟩
    by_contra hspares
    exact hassigned ⟨a, code, closed, ha, hclosure, n, hn, hspares⟩
  obtain rfl := state_of_var hk
  have hheld := (compositional_leaves.evalEntries (fun n _ => hleaves n) hheld hys).1
  obtain rfl : y = k := by
    have := hheld.cell
    rw [hcell] at this
    cases this
    rfl
  exact (compositional_leaves.evalEntries (fun n _ => hleaves n) (hleaves value hheld hx).1 hzs).1.cell

end Variables

/-- Two keys that are the same have the same value, unless they are a variable that may change in between. -/
theorem value_of_sameKey {before between after : List (Entry Node)} {e e' : Entry Node}
    (hsame : SameKey e.key e'.key) {fuel : Nat} {env : Env} {s t : State} {es : List (Value × Value)}
    (hvar : HasVariable env s e) (hchange : ¬ MayChange env s e between)
    (hrun : evalEntries (callAt fuel) env (before ++ e :: (between ++ e' :: after)) s = .ok (es, t)) :
    ∃ k x x', es[before.length]? = some (k, x) ∧ es[before.length + 1 + between.length]? = some (k, x') := by
  obtain ⟨ys, u, _, hys, hfrom, rfl, hbefore⟩ := evalEntries_append_eq_ok hrun
  obtain ⟨k, u₁, x, u₂, _, hk, hx, hbehind, rfl⟩ := evalEntries_cons_eq_ok hfrom
  obtain ⟨zs, u₃, _, hzs, hfrom', rfl, hbetween⟩ := evalEntries_append_eq_ok hbehind
  obtain ⟨k', _, x', _, ws, hk', -, -, rfl⟩ := evalEntries_cons_eq_ok hfrom'
  have hequal : k' = k := by
    rw [HasVariable] at hvar
    rw [MayChange] at hchange
    generalize e.key = key, e'.key = key' at hsame hk hk' hvar hchange
    cases hsame with
    | @var v v' hid =>
      rw [eval_var_congr hid] at hk'
      by_cases hcalls : ∃ n ∈ e.value :: between.flatMap Entry.children, n.HasCall
      · have hassigned : ¬ Assigned env s v := fun hassigned => hchange ⟨v, rfl, hcalls, hassigned⟩
        exact eq_of_not_assigned hk hx hzs hk' (hvar v · rfl) hassigned hys
      · exact eq_of_no_call hk hx hzs hk' hcalls
    | _ => exact (pure_eq_ok hk').1.trans (pure_eq_ok hk).1.symm
  subst hequal
  refine ⟨k', x, x', ?_, ?_⟩
  · simp [← hbefore]
  · rw [← hbefore, ← hbetween, List.getElem?_append_right (by omega)]
    simp [show ys.length + 1 + zs.length - ys.length = zs.length + 1 by omega]

/-! ### Literals of equal value -/

/-- A literal as the grammar reads it, and its value. -/
inductive LiteralKey : Node → Value → Prop
  | int (n : Int) : LiteralKey (.intLit n) (.int n)
  | float {whole fraction : List Char} {x : Float} (h : floatOfDigits? whole fraction = some x) :
    LiteralKey (.floatLit x) (.float x)
  | string (text : String) : LiteralKey (.stringLit text) (.string text)
  | bool (name : String) (b : Bool) (type : Ty) : LiteralKey (.boolLit name b type) (.bool b)

def RepeatsLiteral (entries : List (Entry Node)) : Prop :=
  ∃ (before : List (Entry Node)) (e : Entry Node) (between : List (Entry Node)) (e' : Entry Node)
    (after : List (Entry Node)) (v v' : Value),
    entries = before ++ e :: (between ++ e' :: after) ∧ LiteralKey e.key v ∧ LiteralKey e'.key v' ∧
      same v v' = true

theorem LiteralKey.sameKey {k k' : Node} {v v' : Value} (h : LiteralKey k v) (h' : LiteralKey k' v')
    (hsame : same v v') : SameKey k k' := by
  cases h with
  | int n =>
    cases h' with
    | int n' =>
      obtain rfl : n = n' := by simpa [same] using hsame
      exact .int n
    | _ => cases hsame
  | float hx =>
    cases h' with
    | float hy =>
      obtain rfl := Binary64.eq_of_floatOfDigits? hx hy hsame
      exact .float _
    | _ => cases hsame
  | string text =>
    cases h' with
    | string text' =>
      obtain rfl : text = text' := by simpa [same] using hsame
      exact .string text
    | _ => cases hsame
  | bool name b type =>
    cases h' with
    | bool name' b' type' =>
      obtain rfl : b = b' := by simpa [same] using hsame
      exact .bool name name' b type type'
    | _ => cases hsame

theorem yields_literal {k : Node} {v : Value} (h : LiteralKey k v) (here : Surroundings) :
    Yields (node here k) (LiteralKey · v) := by
  cases h with
  | int n => exact yields_pure (.int n)
  | float hx => exact yields_pure (.float hx)
  | string text => exact yields_pure (.string text)
  | bool name b => exact yields_pure (.bool name b .boolean)

theorem yields_mapEntries_append {before rest : List (Entry Node)} {here : Surroundings}
    {P : List (Entry Node) → Prop}
    (h : ∀ before', Yields (mapEntries here rest) fun rest' => P (before' ++ rest')) :
    Yields (mapEntries here (before ++ rest)) P := by
  induction before generalizing P with
  | nil => exact h []
  | cons _ _ ih =>
    refine (Yields.any _).bind fun key _ => (Yields.any _).bind fun value _ => ?_
    refine Yields.bind (P := fun rest' => P (⟨key, value⟩ :: rest')) (ih fun before' => ?_) fun _ => yields_pure
    exact h (⟨key, value⟩ :: before')

theorem yields_mapEntries_cons {e : Entry Node} {rest : List (Entry Node)} {here : Surroundings} {v : Value}
    (he : LiteralKey e.key v) {P : List (Entry Node) → Prop}
    (h : ∀ key value, LiteralKey key v → Yields (mapEntries here rest) fun rest' => P (⟨key, value⟩ :: rest')) :
    Yields (mapEntries here (e :: rest)) P := by
  refine (yields_literal he here).bind fun key hkey => (Yields.any _).bind fun value _ => ?_
  exact (h key value hkey).bind fun _ => yields_pure

theorem yields_mapLiteral (entries : List (Entry Node)) :
    Yields (mapLiteral entries) fun _ => distinct ((entries.map (·.key)).filterMap keyPrint?) := by
  cases entries with
  | nil => exact yields_pure rfl
  | cons =>
    refine (Yields.any _).bind fun _ _ => (Yields.any _).bind fun _ _ => ?_
    exact (yields_require _ _).bind fun _ hdistinct => yields_pure hdistinct

theorem yields_repeated {entries : List (Entry Node)} (h : RepeatsLiteral entries) (here : Surroundings) (type : Ty) :
    Yields (node here (.mapLit entries type)) fun _ => False := by
  obtain ⟨before, e, between, e', after, v, v', rfl, he, he', hsame⟩ := h
  have hentries : Yields (mapEntries here (before ++ e :: (between ++ e' :: after))) fun entries' =>
      distinct ((entries'.map (·.key)).filterMap keyPrint?) = false := by
    refine yields_mapEntries_append fun before' => yields_mapEntries_cons he fun key value hkey => ?_
    refine yields_mapEntries_append fun between' => yields_mapEntries_cons he' fun key' value' hkey' => ?_
    exact (Yields.any _).imp fun after' _ => distinct_of_sameKey (hkey.sameKey hkey' hsame)
  refine hentries.bind fun entries' hrepeated => (yields_mapLiteral entries').imp fun _ hdistinct => ?_
  rw [hrepeated] at hdistinct
  cases hdistinct

/-- If a literal is rejected for its keys, two of them are literals of one value or the same variable. Whenever
its evaluation ends normally, these two have the same value, unless they are a variable that may change in
between. No literal is accepted that has two literals of equal value as keys. -/
theorem keys_rejected_rightly (entries : List (Entry Node)) :
    (∀ scope, mapLiteral entries scope = .error (.semantic .repeatedKey) →
      ∃ before e between e' after, entries = before ++ e :: (between ++ e' :: after) ∧ SameKey e.key e'.key ∧
        ∀ fuel env s t es, HasVariable env s e → ¬ MayChange env s e between →
          evalEntries (callAt fuel) env entries s = .ok (es, t) →
          ∃ k x x', es[before.length]? = some (k, x) ∧ es[before.length + 1 + between.length]? = some (k, x')) ∧
    (RepeatsLiteral entries → ∀ here type scope r, node here (.mapLit entries type) scope ≠ .ok r) := by
  refine ⟨fun scope hrejected => ?_, fun h here type scope r hok => yields_repeated h here type scope r.1 r.2 hok⟩
  obtain ⟨before, e, between, e', after, rfl, hsame⟩ := exists_sameKey (distinct_of_mapLiteral hrejected)
  refine ⟨before, e, between, e', after, rfl, hsame, ?_⟩
  intro fuel env s t es hvar hchange hrun
  exact value_of_sameKey hsame hvar hchange hrun

/-! ### A counter as a key -/

namespace CounterKey

def counter : Variable := ⟨Library.firstUserId, "counter", false, .int⟩

def count : Function := ⟨Library.firstUserId + 1, "count", some ⟨[], .int⟩⟩

/-- The counter is a key twice, and something is called in between. -/
def entries : List (Entry Node) := [⟨.var counter, .call (.fn count) (some []) .int⟩, ⟨.var counter, .intLit 2⟩]

def env : Env := [(count.id, 1), (counter.id, 0)]

def state (body : List Node) : State := ⟨[.var (.int 1), .closure ⟨count.id, [], some body⟩ env], []⟩

theorem mapLiteral_entries (scope : Scope) : mapLiteral entries scope = .error (.semantic .repeatedKey) := rfl

theorem key_of_mem {e : Entry Node} (he : e ∈ entries) : e.key = .var counter := by
  rcases List.mem_pair.mp he with rfl | rfl <;> rfl

theorem hasVariable_of_mem {e : Entry Node} (he : e ∈ entries) (body : List Node) :
    HasVariable env (state body) e := by
  intro v a hv ha
  rw [key_of_mem he] at hv
  cases hv
  cases ha
  exact ⟨.int 1, rfl⟩

def peeking : List Node := [.giveBack (.var counter)]

theorem not_assigned_peeking : ¬ Assigned env (state peeking) counter := by
  rintro ⟨a, code, closed, -, hclosure, n, hn, hassigns⟩
  obtain ⟨rfl, rfl⟩ : code = ⟨count.id, [], some peeking⟩ ∧ closed = env := by
    simpa [state] using hclosure
  obtain rfl : n = .giveBack (.var counter) := by simpa [peeking] using hn
  refine hassigns (.of_children nofun (List.forall_mem_singleton.mpr (.of_leaf nofun rfl)))

theorem keys_rejected_rightly_peeking :
    (∃ before e between e' after es t k x x', entries = before ++ e :: (between ++ e' :: after) ∧
      ¬ MayChange env (state peeking) e between ∧
      evalEntries (callAt 1) env entries (state peeking) = .ok (es, t) ∧
      es[before.length]? = some (k, x) ∧ es[before.length + 1 + between.length]? = some (k, x')) ∧
    RepeatsLiteral [⟨.intLit 1, .intLit 2⟩, ⟨.intLit 1, .intLit 3⟩] ∧
      ∀ r, node ⟨false, none⟩ (.mapLit [⟨.intLit 1, .intLit 2⟩, ⟨.intLit 1, .intLit 3⟩] .nothing) Scope.initial ≠
        .ok r := by
  have hrepeats : RepeatsLiteral [⟨.intLit 1, .intLit 2⟩, ⟨.intLit 1, .intLit 3⟩] :=
    ⟨[], _, [], _, [], .int 1, .int 1, rfl, .int 1, .int 1, rfl⟩
  have hrun : evalEntries (callAt 1) env entries (state peeking) =
      .ok ([(.int 1, .int 1), (.int 1, .int 2)], state peeking) := rfl
  refine ⟨?_, hrepeats, (keys_rejected_rightly _).2 hrepeats _ _ _⟩
  obtain ⟨before, e, between, e', after, hentries, -, hvalues⟩ :=
    (keys_rejected_rightly entries).1 _ (mapLiteral_entries Scope.initial)
  have he : e ∈ entries := by simp [hentries]
  have hchange : ¬ MayChange env (state peeking) e between := by
    rintro ⟨v, hv, -, hassigned⟩
    rw [key_of_mem he] at hv
    cases hv
    exact not_assigned_peeking hassigned
  obtain ⟨k, x, x', hfirst, hsecond⟩ := hvalues _ _ _ _ _ (hasVariable_of_mem he peeking) hchange hrun
  exact ⟨before, e, between, e', after, _, _, k, x, x', hentries, hchange, hrun, hfirst, hsecond⟩

def counting : List Node := [.binary (.var counter) .addAssign (.intLit 1) .int, .giveBack (.intLit 0)]

def source (rest : List Node) : Program :=
  ⟨[], some (.varDecl (.named "slice") "counter" (.intLit 1) false false none ::
    .funDecl "count" false (.named "slice") (some []) (some [.binary (.ident "counter") .addAssign (.intLit 1) .nothing,
      .giveBack (.intLit 0)]) none :: rest)⟩

def map : Node :=
  .mapLit [⟨.ident "counter", .call (.ident "count") (some []) .nothing⟩, ⟨.ident "counter", .intLit 2⟩] .nothing

def declarations : List Node :=
  [.varDecl .int "counter" (.intLit 1) false false (some counter),
    .funDecl "count" false .int (some []) (some counting) (some count)]

/-- The map is rejected, although the counter has different values for its two keys. -/
theorem keys_rejected_wrongly :
    (source [map]).analyze = .error (.semantic .repeatedKey) ∧
    (source []).analyze = .ok ⟨[], some declarations⟩ ∧
    execAll (callAt 1) 1 [] declarations ⟨[], []⟩ = .ok ((.onward, env), state counting) ∧
    mapLiteral entries Scope.initial = .error (.semantic .repeatedKey) ∧
    ∃ es t, evalEntries (callAt 1) env entries (state counting) = .ok (es, t) ∧ (es.map Prod.fst).Nodup := by
  refine ⟨rfl, rfl, rfl, rfl, _, _, rfl, ?_⟩
  simp

end CounterKey

end LemonScript
