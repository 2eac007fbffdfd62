import ClosureEnv.Capture
import ClosureEnv.Proofs.Bound.Tree

/-!
# What closures capture

The analysis of a well-bound tree succeeds (`analyze_spec`), and its steps tell which variables each
closure needs: those that it or a closure in it mentions and that are declared around it.
-/

namespace ClosureEnv

variable {t : ScopeTree} {holds : VarId → ClosureId → Prop}

namespace ScopeTree.WellBound

variable (h : t.WellBound holds)

include h

/-- The scopes from one up to another that is around it. -/
theorem way_spec {s z : Nat} (hs : s < t.scopes.size) :
    ∃ w, t.way s z = .ok w ∧ ∀ x, Around t.scopes z s →
      (x ∈ w ↔ AroundEq t.scopes x s ∧ Around t.scopes z x) := by
  suffices key : ∀ (s bound : Nat), s < bound → s < t.scopes.size →
      ∃ w, t.wayFrom z bound s = .ok w ∧ ∀ x, AroundEq t.scopes z s →
        (x ∈ w ↔ AroundEq t.scopes x s ∧ Around t.scopes z x) by
    obtain ⟨w, hw, hmem⟩ := key s (t.scopes.size + 1) (by omega) hs
    exact ⟨w, hw, fun x ha => hmem x (.inr ha)⟩
  intro s
  induction s using Nat.strongRecOn with
  | ind s ih =>
    intro bound hb hs
    obtain ⟨bound, rfl⟩ : ∃ k, bound = k + 1 := ⟨bound - 1, by omega⟩
    have hx : t.scopes[s]? = some t.scopes[s] := Array.getElem?_eq_getElem hs
    rw [wayFrom]
    by_cases heq : s = z
    · rw [if_pos (by simpa using heq)]
      refine ⟨[], rfl, fun x _ => ⟨fun hx => (by cases hx), fun ⟨hxs, hsx⟩ => ?_⟩⟩
      subst heq
      exact absurd (hsx.trans_eq h.preorder hxs) (Around.irrefl h.preorder)
    · rw [if_neg (by simpa using heq), scope_eq_ok.mpr hx, Lower.ok_bind]
      cases hpar : t.scopes[s].parent with
      | none =>
        refine ⟨[s], rfl, fun x hstop => ?_⟩
        obtain ⟨p, hp, -⟩ := (around_iff h.preorder).mp (hstop.resolve_left (Ne.symm heq))
        rw [parentIn?_of_scope hx, hpar] at hp
        cases hp
      | some p =>
        obtain ⟨hlt, hsize⟩ := h.parent_lt hx hpar
        obtain ⟨w, hw, hmem⟩ := ih p hlt bound (by omega) hsize
        refine ⟨s :: w, by simp [hw, Lower.ok_bind, pure, Except.pure], fun x hstop => ?_⟩
        have hss := hstop.resolve_left (Ne.symm heq)
        have hpi := (parentIn?_of_scope hx).trans hpar
        rw [List.mem_cons, hmem x (aroundEq_parent h.preorder hpi hss)]
        constructor
        · rintro (rfl | ⟨hxp, hsx⟩)
          · exact ⟨.inl rfl, hss⟩
          · exact ⟨.inr (around_of_parent h.preorder hpi hxp), hsx⟩
        · rintro ⟨rfl | hxs, hsx⟩
          · exact .inl rfl
          · exact .inr ⟨aroundEq_parent h.preorder hpi hxs, hsx⟩

/-- A closure needs a variable when one at or below it mentions the variable and the variable is
declared around it. -/
theorem needs_iff {c : ClosureId} {v : VarId} : t.Needs c v ↔
    ∃ outer inner x, t.closures[c]? = some outer ∧ inner ∈ t.closures ∧ t.vars[v]? = some x ∧
      v ∈ inner.freeVars ∧ AroundEq t.scopes outer.scope inner.scope ∧
      Around t.scopes x.scope outer.scope := by
  constructor
  · rintro ⟨outer, inner, x, ho, hi, hx, hoi, hv, hno⟩
    obtain ⟨i, hin⟩ := Array.mem_iff_getElem?.mp hi
    obtain ⟨y, hy, hyi⟩ := h.free_var i inner v hin hv
    cases hx.symm.trans hy
    have := AroundEq.total h.preorder hoi (.inr hyi)
    exact ⟨outer, inner, x, ho, hi, hx, hv, hoi, this.resolve_left hno⟩
  · rintro ⟨outer, inner, x, ho, hi, hx, hv, hoi, hxo⟩
    refine ⟨outer, inner, x, ho, hi, hx, hoi, hv, fun hox => ?_⟩
    exact Around.irrefl h.preorder (hxo.trans_eq h.preorder hox)

/-- What a closure needs is declared around it. -/
theorem around_of_needs {c : ClosureId} {v : VarId} {k : Closure} {x : Variable}
    (hn : t.Needs c v) (hk : t.closures[c]? = some k) (hx : t.vars[v]? = some x) :
    Around t.scopes x.scope k.scope := by
  obtain ⟨outer, inner, y, ho, -, hy, -, -, hyo⟩ := h.needs_iff.mp hn
  cases hk.symm.trans ho
  cases hx.symm.trans hy
  exact hyo

/-- A variable that a closure needs exists, and so does the closure. -/
theorem exists_of_needs {c : ClosureId} {v : VarId} (hn : t.Needs c v) :
    ∃ k x, t.closures[c]? = some k ∧ t.vars[v]? = some x := by
  obtain ⟨outer, -, y, ho, -, hy, -, -, -⟩ := h.needs_iff.mp hn
  exact ⟨outer, y, ho, hy⟩

/-- The steps from a closure to one of its free variables. -/
theorem captureSteps_spec {k : Closure} {v : VarId} (hk : k ∈ t.closures) (hv : v ∈ k.freeVars) :
    ∃ steps x, t.captureSteps k v = .ok steps ∧ t.vars[v]? = some x ∧ ∀ s, s ∈ steps ↔
      s.var = v ∧ AroundEq t.scopes s.scope k.scope ∧ Around t.scopes x.scope s.scope ∧
        s.user = t.scopes[s.scope]?.bind Scope.closure := by
  obtain ⟨c, hc⟩ := Array.mem_iff_getElem?.mp hk
  obtain ⟨x, hx, hax⟩ := h.free_var c k v hc hv
  obtain ⟨w, hw, hmem⟩ := h.way_spec (z := x.scope) (hax.lt_size h.preorder)
  refine ⟨w.map fun s => ⟨v, s, t.scopes[s]?.bind Scope.closure⟩, x, ?_, hx, fun s => ?_⟩
  · simp [captureSteps, var_eq_ok.mpr hx, isStrictAncestor, isStrictAncestorIn_iff.mpr hax, hw,
      bind, Except.bind, pure, Except.pure]
  · rw [List.mem_map]
    constructor
    · rintro ⟨i, hi, rfl⟩
      exact ⟨rfl, ((hmem i hax).mp hi).1, ((hmem i hax).mp hi).2, rfl⟩
    · rintro ⟨rfl, hik, hxi, hu⟩
      exact ⟨s.scope, (hmem _ hax).mpr ⟨hik, hxi⟩, by rw [← hu]⟩

end ScopeTree.WellBound

/-- The scope lies on the way from a closure up to the scope that declares a variable, excluded. -/
def ScopeTree.OnWay (t : ScopeTree) (k : Closure) (v : VarId) (s : ScopeId) : Prop :=
  ∃ x, t.vars[v]? = some x ∧ AroundEq t.scopes s k.scope ∧ Around t.scopes x.scope s

/-- A step on the way from some closure to one of its free variables. -/
def ScopeTree.IsStep (t : ScopeTree) (s : CaptureStep) : Prop :=
  ∃ k ∈ t.closures, s.var ∈ k.freeVars ∧ t.OnWay k s.var s.scope ∧
    s.user = t.scopes[s.scope]?.bind Scope.closure

namespace ScopeTree.WellBound

variable (h : t.WellBound holds)

include h

/-- A step whose scope is that of a closure says that the closure needs the variable. -/
theorem needs_iff_step {c : ClosureId} {v : VarId} :
    t.Needs c v ↔ ∃ s, t.IsStep s ∧ s.user = some c ∧ s.var = v := by
  rw [h.needs_iff]
  constructor
  · rintro ⟨o, k, x, ho, hk, hx, hv, hok, hxo⟩
    obtain ⟨sc, hsc, hcl, -⟩ := h.closure_scope c o ho
    refine ⟨⟨v, o.scope, some c⟩, ⟨k, hk, hv, ⟨x, hx, hok, hxo⟩, ?_⟩, rfl, rfl⟩
    simp [hsc, hcl]
  · rintro ⟨s, ⟨k, hk, hv, ⟨x, hx, hsk, hxs⟩, huser⟩, hu, rfl⟩
    rw [hu] at huser
    obtain ⟨sc, hsc, hcl⟩ := Option.bind_eq_some_iff.mp huser.symm
    obtain ⟨o, ho, hos⟩ := h.closure_of_scope _ sc c hsc hcl
    exact ⟨o, k, x, ho, hk, hx, hv, hos ▸ hsk, hos ▸ hxs⟩

/-- The steps of the analysis. -/
theorem steps_spec : ∃ steps, t.closures.toList.mapM (fun c => do
    return (← c.freeVars.mapM (t.captureSteps c)).flatten) = Except.ok steps ∧
      ∀ s, s ∈ steps.flatten ↔ t.IsStep s := by
  have hvar (k : Closure) (hk : k ∈ t.closures.toList) (v : VarId) (hv : v ∈ k.freeVars) :
      ∃ steps, t.captureSteps k v = .ok steps ∧ ∀ s, s ∈ steps ↔ s.var = v ∧
        t.OnWay k v s.scope ∧ s.user = t.scopes[s.scope]?.bind Scope.closure := by
    obtain ⟨steps, x, hs, hx, hmem⟩ := h.captureSteps_spec (Array.mem_toList_iff.mp hk) hv
    refine ⟨steps, hs, fun s => (hmem s).trans ⟨?_, ?_⟩⟩
    · exact fun ⟨hvar, hsk, hxs, hu⟩ => ⟨hvar, ⟨x, hx, hsk, hxs⟩, hu⟩
    · rintro ⟨hvar, ⟨x', hx', hsk, hxs⟩, hu⟩
      cases hx.symm.trans hx'
      exact ⟨hvar, hsk, hxs, hu⟩
  obtain ⟨steps, hs, hmem⟩ := Lower.mapM_flatten fun k hk => Lower.mapM_bind_flatten (hvar k hk)
  exact ⟨steps, hs, fun s => (hmem s).trans (by simp [ScopeTree.IsStep])⟩

/-- A closure needs the variables of its steps. -/
theorem mem_needs_iff {steps : List CaptureStep} (hsteps : ∀ s, s ∈ steps ↔ t.IsStep s)
    (c : ClosureId) (v : VarId) : v ∈ CaptureStep.needs steps c ↔ t.Needs c v := by
  rw [h.needs_iff_step]
  simp only [CaptureStep.needs, SortedSet.mem_ofList, List.mem_filterMap, hsteps]
  refine exists_congr fun s => and_congr_right fun _ => ?_
  by_cases hc : s.user = some c <;> simp [hc]

/-- The ways from a closure to the variables that it needs. -/
theorem ways_spec {c : ClosureId} {k : Closure} (hk : t.closures[c]? = some k) {vars : List VarId}
    (hvars : ∀ v ∈ vars, t.Needs c v) : ∃ ways, vars.mapM (fun v => do
      t.way k.scope (← t.var v).scope) = Except.ok ways ∧
        ∀ s, s ∈ ways.flatten ↔ ∃ v ∈ vars, t.OnWay k v s := by
  refine Lower.mapM_flatten fun v hv => ?_
  obtain ⟨-, x, -, hx⟩ := h.exists_of_needs (hvars v hv)
  have haround := h.around_of_needs (hvars v hv) hk hx
  obtain ⟨w, hw, hmem⟩ := h.way_spec (z := x.scope) (haround.lt_size h.preorder)
  refine ⟨w, by rw [ScopeTree.var_eq_ok.mpr hx, Lower.ok_bind, hw],
    fun s => (hmem s haround).trans ⟨fun hs => ⟨x, hx, hs⟩, ?_⟩⟩
  rintro ⟨y, hy, hs⟩
  cases hx.symm.trans hy
  exact hs

/-- What an escaping closure needs, and the scopes on the ways there. -/
theorem escaping_spec {steps : List CaptureStep} (hsteps : ∀ s, s ∈ steps ↔ t.IsStep s) :
    ∃ escaping, (t.closures.toList.filter Closure.escapes).mapM (fun c => do
      let vars := CaptureStep.needs steps c.id
      let ways ← vars.mapM fun v => do t.way c.scope (← t.var v).scope
      return (vars, ways.flatten)) = Except.ok escaping ∧
      (∀ v, v ∈ escaping.flatMap Prod.fst ↔
        ∃ k ∈ t.closures, k.escapes = true ∧ t.Needs k.id v) ∧
      ∀ s, s ∈ escaping.flatMap Prod.snd ↔
        ∃ k ∈ t.closures, k.escapes = true ∧ ∃ v, t.Needs k.id v ∧ t.OnWay k v s := by
  have hneeds := h.mem_needs_iff hsteps
  obtain ⟨escaping, he, hof, hall⟩ := Lower.mapM_spec
    (P := fun k (e : List VarId × List ScopeId) => (∀ v, v ∈ e.1 ↔ t.Needs k.id v) ∧
      ∀ s, s ∈ e.2 ↔ ∃ v, t.Needs k.id v ∧ t.OnWay k v s)
    (l := t.closures.toList.filter Closure.escapes) (f := fun c => do
      let vars := CaptureStep.needs steps c.id
      let ways ← vars.mapM fun v => do t.way c.scope (← t.var v).scope
      return (vars, ways.flatten)) fun k hk => by
    obtain ⟨c, hc⟩ := List.mem_iff_getElem?.mp (List.mem_filter.mp hk).1
    rw [Array.getElem?_toList] at hc
    have hid := h.closure_id c k hc
    obtain ⟨ways, hways, hmem⟩ := h.ways_spec hc fun v hv => (hneeds c v).mp hv
    refine ⟨(CaptureStep.needs steps k.id, ways.flatten), by dsimp only; rw [hid, hways]; rfl,
      hneeds k.id, fun s => (hmem s).trans ?_⟩
    simp only [hneeds, hid]
  refine ⟨escaping, he, fun v => ?_, fun s => ?_⟩ <;> rw [List.mem_flatMap] <;> constructor
  · rintro ⟨e, hem, hv⟩
    obtain ⟨k, hk, hvars, -⟩ := hof e hem
    exact ⟨k, Array.mem_toList_iff.mp (List.mem_filter.mp hk).1, (List.mem_filter.mp hk).2,
      (hvars v).mp hv⟩
  · rintro ⟨k, hk, hesc, hv⟩
    obtain ⟨e, hem, hvars, -⟩ := hall k (List.mem_filter.mpr ⟨Array.mem_toList_iff.mpr hk, hesc⟩)
    exact ⟨e, hem, (hvars v).mpr hv⟩
  · rintro ⟨e, hem, hs⟩
    obtain ⟨k, hk, -, hways⟩ := hof e hem
    exact ⟨k, Array.mem_toList_iff.mp (List.mem_filter.mp hk).1, (List.mem_filter.mp hk).2,
      (hways s).mp hs⟩
  · rintro ⟨k, hk, hesc, hs⟩
    obtain ⟨e, hem, -, hways⟩ := hall k (List.mem_filter.mpr ⟨Array.mem_toList_iff.mpr hk, hesc⟩)
    exact ⟨e, hem, (hways s).mpr hs⟩

end ScopeTree.WellBound

/-- What the lists of an analysis hold. -/
structure Captures.Traced (t : ScopeTree) (a : Captures) : Prop where
  /-- The steps are those on the ways from the closures to their free variables. -/
  mem_steps : ∀ s, s ∈ a.steps ↔ t.IsStep s
  /-- The variables are those that escaping closures need. -/
  mem_escapingVars : ∀ v, v ∈ a.escapingVars ↔
    ∃ k ∈ t.closures, k.escapes = true ∧ t.Needs k.id v
  /-- The scopes are those on the ways from escaping closures to what they need. -/
  mem_escapingScopes : ∀ s, s ∈ a.escapingScopes ↔
    ∃ k ∈ t.closures, k.escapes = true ∧ ∃ v, t.Needs k.id v ∧ t.OnWay k v s

/-- The analysis of a well-bound tree succeeds. -/
theorem Captures.analyze_traced (h : t.WellBound holds) :
    ∃ a, Captures.analyze t = .ok a ∧ a.Traced t := by
  obtain ⟨steps, hs, hmem⟩ := h.steps_spec
  obtain ⟨escaping, he, hvars, hscopes⟩ := h.escaping_spec hmem
  refine ⟨_, Lower.bind_eq_ok.mpr ⟨steps, hs, Lower.bind_eq_ok.mpr ⟨escaping, he, rfl⟩⟩,
    hmem, fun v => ?_, fun s => ?_⟩
  · exact SortedSet.mem_ofList.trans (hvars v)
  · exact SortedSet.mem_ofList.trans (hscopes s)

/-- What the analysis of captures says of a tree. -/
structure Captures.Sound (t : ScopeTree) (a : Captures) : Prop where
  /-- What each closure needs. -/
  needs : ∀ c v, v ∈ a.needs c ↔ t.Needs c v
  /-- What some closure needs. -/
  captured : ∀ v, v ∈ a.captured ↔ ∃ c, t.Needs c v
  /-- The captured variables are in order. -/
  sorted : a.captured.Pairwise (· < ·)

/-- What is read off the steps is sound. -/
theorem Captures.Traced.sound {a : Captures} (h : t.WellBound holds) (ha : a.Traced t) :
    a.Sound t where
  needs := h.mem_needs_iff ha.mem_steps
  captured v := by
    simp only [Captures.captured, SortedSet.mem_ofList, List.mem_filterMap, ha.mem_steps]
    constructor
    · rintro ⟨s, hs, hv⟩
      obtain ⟨hu, rfl⟩ : s.user.isSome = true ∧ s.var = v := by simpa using hv
      obtain ⟨c, hc⟩ := Option.isSome_iff_exists.mp hu
      exact ⟨c, h.needs_iff_step.mpr ⟨s, hs, hc, rfl⟩⟩
    · rintro ⟨c, hn⟩
      obtain ⟨s, hs, hu, rfl⟩ := h.needs_iff_step.mp hn
      exact ⟨s, hs, by simp [hu]⟩
  sorted := (SortedSet.pairwise_ofList (α := VarId) _).imp fun hlt => Nat.compare_eq_lt.mp hlt

/-- The analysis of a well-bound tree succeeds and is sound. -/
theorem Captures.analyze_spec (h : t.WellBound holds) :
    ∃ a, Captures.analyze t = .ok a ∧ a.Sound t := by
  obtain ⟨a, ha, htraced⟩ := Captures.analyze_traced h
  exact ⟨a, ha, htraced.sound h⟩

end ClosureEnv
