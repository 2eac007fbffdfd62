import ClosureEnv.Proofs.Plan.Sound

/-!
# What is within reach

A variable that is visible in a scope belongs to it or to one around it, and all closures in between
need the variable. `ScopeTree.Reach` keeps this while one goes further into a body, and what it says
of variables carries over to the plans that hold them (`PlanTable.Handed`).
-/

namespace ClosureEnv

/-- What is visible in a scope belongs to it or around it, and is needed by every closure in
between. -/
def ScopeTree.Reach (t : ScopeTree) (s : ScopeId) (vis : VarId → Prop) : Prop :=
  ∀ v, vis v → ∃ x, t.vars[v]? = some x ∧ AroundEq t.scopes x.scope s ∧
    ∀ c k, t.closures[c]? = some k → Around t.scopes x.scope k.scope →
      AroundEq t.scopes k.scope s → t.Needs c v

variable {t : ScopeTree} {holds : VarId → ClosureId → Prop} {ps : PlanTable}

namespace ScopeTree.Reach

/-- What is visible around a block is visible in it. -/
theorem block (h : t.WellBound holds) {s i : ScopeId} {vis : VarId → Prop} (hr : t.Reach s vis)
    {x : Scope} (hx : t.scopes[i]? = some x) (hpar : x.parent = some s)
    (hk : x.kind ≠ .closure) : t.Reach i vis := by
  have hpi := (parentIn?_of_scope hx).trans hpar
  intro v hv
  obtain ⟨y, hy, hys, hneeds⟩ := hr v hv
  refine ⟨y, hy, .inr (around_of_parent h.preorder hpi hys), fun c k hk' hyk hki => ?_⟩
  refine hneeds c k hk' hyk (aroundEq_parent h.preorder hpi ?_)
  refine hki.resolve_left ?_
  rintro rfl
  obtain ⟨z, hz, hzc, -⟩ := h.closure_scope c k hk'
  cases hx.symm.trans hz
  exact hk ((h.closure_iff _ _ hx).mpr ⟨c, hzc⟩)

/-- What belongs to a scope is visible in it. -/
theorem own (hp : Preorder t.scopes) {s : ScopeId} {v : VarId} {x : Variable}
    (hx : t.vars[v]? = some x) (hxs : x.scope = s) : t.Reach s (· = v) := by
  rintro w rfl
  refine ⟨x, hx, .inl hxs, fun c k _ hxk hks => ?_⟩
  rw [hxs] at hxk
  exact absurd (hxk.trans_eq hp hks) (Around.irrefl hp)

/-- Parameters are visible at the start of the body that they belong to. -/
theorem params (h : t.WellBound holds) {s : ScopeId} {params binds : List VarId}
    (hparams : Bound.ParamsOf t s params binds) : t.Reach s (· ∈ params) := by
  intro v hv
  obtain ⟨x, hx, hxs⟩ := hparams.scope v hv
  exact own h.preorder hx hxs v rfl

/-- What a closure needs is visible in its body. -/
theorem needs (h : t.WellBound holds) {c : ClosureId} {k : Closure} (hk : t.closures[c]? = some k) :
    t.Reach k.scope (t.Needs c) := by
  intro v hn
  obtain ⟨-, x, -, hx⟩ := h.exists_of_needs hn
  have hxk := h.around_of_needs hn hk hx
  refine ⟨x, hx, .inr hxk, fun d l hl hxl hlk => ?_⟩
  obtain ⟨k', inner, x', hk', hi, hx', hki, hv, -⟩ := hn
  cases hk.symm.trans hk'
  cases hx.symm.trans hx'
  refine ⟨l, inner, x, hl, hi, hx, hlk.trans h.preorder hki, hv, fun hlx => ?_⟩
  exact Around.irrefl h.preorder (hxl.trans_eq h.preorder hlx)

/-- Two kinds of visible variables. -/
theorem or {s : ScopeId} {vis vis' : VarId → Prop} (hr : t.Reach s vis) (hr' : t.Reach s vis') :
    t.Reach s fun v => vis v ∨ vis' v :=
  fun v hv => hv.elim (hr v) (hr' v)

/-- More is visible after a statement. -/
theorem declare (h : t.WellBound holds) {s : ScopeId} {vis : VarId → Prop} (hr : t.Reach s vis)
    {x : Bound.Stmt} (hx : x.Scoped t holds s vis) : t.Reach s (Bound.after vis [x]) := by
  refine hr.or fun v hv => ?_
  cases x with
  | bind w value =>
    obtain ⟨-, ⟨y, hy, hys⟩, -⟩ := hx
    exact own h.preorder hy hys v (List.mem_singleton.mp hv)
  | assign _ _ | expr _ | ret _ => cases hv

/-- More is visible after statements. -/
theorem after (h : t.WellBound holds) {s : ScopeId} {vis : VarId → Prop} (hr : t.Reach s vis)
    {ss : List Bound.Stmt} (hss : Bound.stmtsScoped t holds s vis ss) :
    t.Reach s (Bound.after vis ss) := by
  induction ss generalizing vis with
  | nil => exact (Bound.after_nil vis).symm ▸ hr
  | cons x xs ih =>
    rw [Bound.after_cons]
    exact ih (hr.declare h hss.1) hss.2

end ScopeTree.Reach

namespace PlanTable.Sound

/-- The plan of a variable comes from a scope at or around its own, with nothing in between. -/
theorem clear_of_varPlan (hps : ps.Sound t) {v : VarId} {p : PlanId} {x : Variable}
    (hv : ps.varPlan.find? v = some p) (hx : t.vars[v]? = some x) :
    ∃ o, ps.From p o ∧ Clear t ps o x.scope := by
  obtain ⟨y, hy, hvy⟩ := hps.linking.placed.var_plan v p hv
  obtain ⟨-, -, x', o, hx', ho, hclear⟩ := hps.linking.placed.slot p y v hy hvy
  cases hx.symm.trans hx'
  exact ⟨o, ⟨y, hy, ho⟩, hclear⟩

/-- A closure is made with the innermost environment that it needs. -/
theorem isInnermost_of_direct (hps : ps.Sound t) {c : ClosureId} {d : PlanId}
    (hb : ps.bindings.find? c = some (.direct d)) : IsInnermost t ps (ps.neededBy c) d := by
  rcases hps.binding c _ hb with ⟨d', heq, hin⟩ | ⟨-, p, x, -, -, heq⟩
  · cases heq
    exact hin
  · split at heq <;> cases heq

/-- The plan that a closure is bound to exists. -/
theorem exists_plan_of_binding (hps : ps.Sound t) {c : ClosureId} {b : ClosureBinding}
    (hb : ps.bindings.find? c = some b) : ∃ x, ps.plans[b.plan]? = some x := by
  rcases hps.binding c b hb with ⟨d, rfl, -, s, ⟨x, hx, -⟩, -⟩ | ⟨-, p, x, hx, -, rfl⟩
  · exact ⟨x, hx⟩
  · cases hsingle : x.isSingleton <;> exact ⟨x, hx⟩

end PlanTable.Sound

namespace PlanTable

/-- Every closure between the scope that a plan comes from and scope `s` needs the plan. -/
structure Handed (t : ScopeTree) (ps : PlanTable) (p : PlanId) (o s : ScopeId) : Prop where
  /-- The plan comes from `o`. -/
  origin : ps.From p o
  /-- That is `s` or around it. -/
  around : AroundEq t.scopes o s
  /-- The closures in between need the plan. -/
  needed : ∀ c k, t.closures[c]? = some k → Around t.scopes o k.scope →
    AroundEq t.scopes k.scope s → p ∈ ps.neededBy c

/-- The plan of a visible variable is handed on to where it is visible. -/
theorem Sound.handed_of_varPlan (h : t.WellBound holds) (hps : ps.Sound t) {s : ScopeId}
    {vis : VarId → Prop} (hr : t.Reach s vis) {v : VarId} (hv : vis v) {p : PlanId}
    (hp : ps.varPlan.find? v = some p) :
    ∃ x o, t.vars[v]? = some x ∧ Handed t ps p o s ∧ AroundEq t.scopes o x.scope := by
  obtain ⟨x, hx, hxs, hneeds⟩ := hr v hv
  obtain ⟨o, ho, hclear⟩ := hps.clear_of_varPlan hp hx
  refine ⟨x, o, hx, ⟨ho, hclear.1.trans h.preorder hxs, fun c k hk hok hks => ?_⟩, hclear.1⟩
  rcases AroundEq.total h.preorder hks hxs with hkx | hxk
  · -- no closure lies between the variable and the scope that holds it
    obtain ⟨⟨sc, hsc, hblock⟩, -⟩ := hclear.2 k.scope hok hkx
    obtain ⟨sc', hsc', hc, -⟩ := h.closure_scope c k hk
    cases hsc.symm.trans hsc'
    have hkind := (h.closure_iff _ _ hsc).mpr ⟨c, hc⟩
    rw [hblock] at hkind
    cases hkind
  · exact hps.linking.vars c v p (hneeds c k hk hxk hks) hp

/-- The parent of a plan is handed on to the scope of the plan. -/
theorem Sound.handed_of_parent (hps : ps.Sound t) {p q : PlanId} {s : ScopeId}
    (hp : ps.From p s) (hq : ps.parent? p = some q) :
    ∃ o, Handed t ps q o s ∧ Around t.scopes o s := by
  obtain ⟨s', o, hp', ho, hos, -⟩ := hps.linking.parent p q hq
  cases hp.unique hp'
  exact ⟨o, ⟨ho, .inr hos, fun c k hk hok hks => hps.closed.parents c p q s o hq hp ho
    ⟨k, hk, hks, hok⟩⟩, hos⟩

/-- The plan of the environment that a closure is made with is handed on to its literal. -/
theorem Sound.handed_of_direct (h : t.WellBound holds) (hps : ps.Sound t) {c : ClosureId}
    {k : Closure} {d : PlanId} (hk : t.closures[c]? = some k)
    (hb : ps.bindings.find? c = some (.direct d)) : ∃ o, Handed t ps d o k.declaredIn := by
  have hneeded := (hps.isInnermost_of_direct hb).1
  obtain ⟨k', o, hk', ho, hok⟩ := hps.linking.needed c d hneeded
  cases hk.symm.trans hk'
  have hod := aroundEq_parent h.preorder (h.parentIn?_closure hk) hok
  exact ⟨o, ho, hod, fun e l hl hol hls => hps.closed.closures e c k d o hk hneeded ho
    ⟨l, hl, hls, hol⟩⟩

end PlanTable

end ClosureEnv
