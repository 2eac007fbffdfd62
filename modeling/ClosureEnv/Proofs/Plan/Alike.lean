import ClosureEnv.Proofs.Plan.Nearest

/-!
# Tables with the same places

Linking sets parents and notes needs, and then each environment is told how it is kept. Where plans
come from and what they hold stays as it is, and so does whatever follows from that.
-/

namespace ClosureEnv.PlanTable

/-- What a plan holds and where it comes from, without its parent and how it is kept. -/
def place (x : Plan) : Plan :=
  { x with parent := none, repr := .value }

/-- Tables whose plans differ at most in their parents and in how they are kept. -/
structure Alike (ps ps' : PlanTable) : Prop where
  /-- Scopes have the same plans. -/
  scopePlan : ps'.scopePlan = ps.scopePlan
  /-- Variables have the same plans. -/
  varPlan : ps'.varPlan = ps.varPlan
  /-- Plans hold the same. -/
  plans : ∀ p : Nat, ps'.plans[p]?.map place = ps.plans[p]?.map place

namespace Alike

variable {t : ScopeTree} {captured : VarId → Prop} {ps ps' ps'' : PlanTable}

/-- What is like one table is like another that is like it. -/
theorem trans (h : Alike ps ps') (h' : Alike ps' ps'') : Alike ps ps'' :=
  ⟨h'.scopePlan.trans h.scopePlan, h'.varPlan.trans h.varPlan,
    fun p => (h'.plans p).trans (h.plans p)⟩

/-- The order does not matter. -/
theorem symm (h : Alike ps ps') : Alike ps' ps :=
  ⟨h.scopePlan.symm, h.varPlan.symm, fun p => (h.plans p).symm⟩

/-- A plan has one like it. -/
theorem exists_plan (h : Alike ps ps') {p : Nat} {x' : Plan} (hx' : ps'.plans[p]? = some x') :
    ∃ x, ps.plans[p]? = some x ∧ place x = place x' := by
  have := h.plans p
  rw [hx', Option.map_some] at this
  obtain ⟨x, hx, hplace⟩ := Option.map_eq_some_iff.mp this.symm
  exact ⟨x, hx, hplace⟩

/-- There are as many plans. -/
theorem size (h : Alike ps ps') : ps'.plans.size = ps.plans.size := by
  have hsize (ps ps' : PlanTable) (h : Alike ps ps') : ps'.plans.size ≤ ps.plans.size := by
    refine Nat.not_lt.mp fun hlt => ?_
    obtain ⟨x, hx, -⟩ := h.exists_plan (Array.getElem?_eq_getElem hlt)
    exact Nat.lt_irrefl _ (Array.getElem?_eq_some_iff.mp hx).1
  exact Nat.le_antisymm (hsize ps ps' h) (hsize ps' ps h.symm)

/-- Plans come from the same scopes. -/
theorem from_iff (h : Alike ps ps') {p : PlanId} {s : ScopeId} : ps'.From p s ↔ ps.From p s := by
  have one (ps ps' : PlanTable) (h : Alike ps ps') (hf : ps'.From p s) : ps.From p s := by
    obtain ⟨x', hx', ho⟩ := hf
    obtain ⟨x, hx, hplace⟩ := h.exists_plan hx'
    exact ⟨x, hx, (congrArg Plan.origin hplace).trans ho⟩
  exact ⟨one ps ps' h, one ps' ps h.symm⟩

/-- The same ways are clear. -/
theorem clear_iff (h : Alike ps ps') {s x : ScopeId} :
    PlanTable.Clear t ps' s x ↔ PlanTable.Clear t ps s x := by
  unfold PlanTable.Clear
  simp only [h.from_iff]

/-- The same plans are nearest. -/
theorem nearest_iff (h : Alike ps ps') {p q : PlanId} : Nearest t ps' p q ↔ Nearest t ps p q := by
  unfold Nearest
  simp only [h.from_iff]

/-- Plans stay well placed. -/
theorem placed (h : Alike ps ps') (hps : Placed t captured ps) : Placed t captured ps' := by
  constructor
  · intro p x' hx'
    obtain ⟨x, hx, hplace⟩ := h.exists_plan hx'
    exact (congrArg Plan.id hplace).symm.trans (hps.plan_id p x hx)
  · intro p x' s hx' ho
    obtain ⟨x, hx, hplace⟩ := h.exists_plan hx'
    obtain ⟨hsing, sc, hsc, hident⟩ :=
      hps.origin p x s hx ((congrArg Plan.origin hplace).trans ho)
    exact ⟨(congrArg Plan.isSingleton hplace).symm.trans hsing, sc, hsc,
      (congrArg Plan.identity hplace).symm.trans hident⟩
  · intro p q s s' hs hs'
    exact hps.order p q s s' (h.from_iff.mp hs) (h.from_iff.mp hs')
  · intro p s hs
    rw [h.scopePlan]
    exact hps.scope_known p s (h.from_iff.mp hs)
  · intro s p hs
    rw [h.scopePlan] at hs
    obtain ⟨o, ho, hc⟩ := hps.scope_plan s p hs
    exact ⟨o, h.from_iff.mpr ho, h.clear_iff.mpr hc⟩
  · intro p x' v hx' hv
    obtain ⟨x, hx, hplace⟩ := h.exists_plan hx'
    have hslots : x.slots = x'.slots := (congrArg Plan.slots hplace :)
    obtain ⟨hc, hvp, y, o, hy, ho, hclear⟩ := hps.slot p x v hx (hslots ▸ hv)
    rw [h.varPlan]
    exact ⟨hc, hvp, y, o, hy, (congrArg Plan.origin hplace).symm.trans ho, h.clear_iff.mpr hclear⟩
  · intro v p hv
    rw [h.varPlan] at hv
    obtain ⟨x, hx, hvx⟩ := hps.var_plan v p hv
    obtain ⟨x', hx', hplace⟩ := h.symm.exists_plan hx
    exact ⟨x', hx', (congrArg Plan.slots hplace) ▸ hvx⟩
  · intro v hv
    rw [h.varPlan]
    exact hps.covered v hv
  · intro p x' hx'
    obtain ⟨x, hx, hplace⟩ := h.exists_plan hx'
    have hslots : x.slots = x'.slots := (congrArg Plan.slots hplace :)
    exact hslots ▸ hps.slots p x hx
  · exact fun p s hs => hps.own p s (h.from_iff.mp hs)
  · intro p x' v y hx' hv hy
    obtain ⟨x, hx, hplace⟩ := h.exists_plan hx'
    have hslots : x.slots = x'.slots := (congrArg Plan.slots hplace :)
    have hmerged : x.merged = x'.merged := (congrArg Plan.merged hplace :)
    obtain ⟨o, ho, hys⟩ := hps.declared p x v y hx (hslots ▸ hv) hy
    exact ⟨o, (congrArg Plan.origin hplace).symm.trans ho, hmerged ▸ hys⟩

end Alike

/-- Tables that are alike and whose plans are kept in the same way. -/
structure Aligned (ps ps' : PlanTable) : Prop extends Alike ps ps' where
  reprs : ∀ p : Nat, ps'.plans[p]?.map Plan.repr = ps.plans[p]?.map Plan.repr

namespace Aligned

variable {ps ps' ps'' : PlanTable}

/-- A table with the same plans. -/
theorem of_plans (hscopes : ps'.scopePlan = ps.scopePlan) (hvars : ps'.varPlan = ps.varPlan)
    (hplans : ps'.plans = ps.plans) : Aligned ps ps' :=
  ⟨⟨hscopes, hvars, fun p => by rw [hplans]⟩, fun p => by rw [hplans]⟩

/-- One step after another. -/
theorem trans (h : Aligned ps ps') (h' : Aligned ps' ps'') : Aligned ps ps'' :=
  ⟨h.toAlike.trans h'.toAlike, fun p => (h'.reprs p).trans (h.reprs p)⟩

end Aligned

end ClosureEnv.PlanTable
