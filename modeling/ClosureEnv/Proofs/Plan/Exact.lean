import ClosureEnv.Proofs.Binding.Source
import ClosureEnv.Proofs.Plan.Walk

/-!
# Plans are exact

Planning the environments of a bound module succeeds, every captured variable can be reached from
where it is needed, and no environment is linked without need (`planEnvironments_exact`).
-/

namespace ClosureEnv

namespace PlanTable

/-- What planning promises, given what closures capture. -/
structure Exact (t : ScopeTree) (a : Captures) (ps : PlanTable) : Prop where
  /-- Plans are numbered by position. -/
  id : ∀ (p : PlanId) x, ps.plans[p]? = some x → x.id = p
  /-- A captured variable is a slot of exactly one plan, the one that it is known to have. -/
  slot : ∀ v ∈ a.captured, ∃ p : PlanId, ps.varPlan.find? v = some p ∧
    ∀ q : PlanId, (∃ x, ps.plans[q]? = some x ∧ v ∈ x.slots) ↔ q = p
  /-- Slots are strictly increasing. -/
  increasing : ∀ (p : PlanId) x, ps.plans[p]? = some x → x.slots.Pairwise (· < ·)
  /-- A slot is for a variable that is declared in the scope of the plan or in a merged one. -/
  declared : ∀ (p : PlanId) x v, ps.plans[p]? = some x → v ∈ x.slots → ∃ y o,
    t.vars[v]? = some y ∧ x.origin = some o ∧ y.scope ∈ o :: x.merged
  /-- A closure that needs something gets an environment from which there is a way to the plan of
  each variable that it needs, through plans whose scopes lie around the closure. -/
  reach : ∀ (c : ClosureId) k, t.closures[c]? = some k → a.needs c ≠ [] →
    ∃ d, ps.bindings.find? c = some (.direct d) ∧ ∀ v ∈ a.needs c, ∃ p way,
      ps.varPlan.find? v = some p ∧ ps.hops d p = .ok way ∧
        ∀ q ∈ d :: way, ∃ o, ps.From q o ∧ Around t.scopes o k.scope
  /-- A closure that needs nothing gets an empty environment that comes from no scope. -/
  stateless : ∀ (c : ClosureId) k, t.closures[c]? = some k → a.needs c = [] →
    ∃ (p : PlanId) (x : Plan), ps.plans[p]? = some x ∧ x.origin = none ∧ x.slots = [] ∧
      (x.identity = .static ∧ ps.bindings.find? c = some (.singleton p) ∨
        ∃ fn, x.identity = .staticGeneric fn ∧ ps.bindings.find? c = some (.fresh p))
  /-- The parent of a plan is the nearest one around it, and comes before it. -/
  parent : ∀ (p : PlanId) x q, ps.plans[p]? = some x → x.parent = some q →
    Nearest t ps p q ∧ q < p
  /-- A link is there because some closure takes it on the way to a variable that it needs. -/
  link : ∀ (p : PlanId) x q, ps.plans[p]? = some x → x.parent = some q →
    ∃ c d v r way, ps.bindings.find? c = some (.direct d) ∧ v ∈ a.needs c ∧
      ps.varPlan.find? v = some r ∧ ps.hops d r = .ok way ∧ [p, q] <:+: d :: way

namespace Sound

variable {t : ScopeTree} {holds : VarId → ClosureId → Prop} {ps : PlanTable} (h : ps.Sound t)
  (ht : t.WellBound holds)

include h ht

/-- A closure that needs a plan needs a variable. -/
theorem exists_needs {c : ClosureId} {p : PlanId} (hp : p ∈ ps.neededBy c) : ∃ v, t.Needs c v := by
  obtain ⟨k, o, -, ho, -⟩ := h.linking.needed c p hp
  obtain ⟨v, -, -, hn, -⟩ := h.linking.reaching ht hp ho
  exact ⟨v, hn⟩

/-- A closure that needs nothing is bound to an empty environment. -/
theorem stateless {c : ClosureId} {k : Closure} (hk : t.closures[c]? = some k)
    (hn : ∀ v, ¬ t.Needs c v) : ∃ (p : PlanId) (x : Plan), ps.plans[p]? = some x ∧
      x.origin = none ∧ x.slots = [] ∧
      (x.identity = .static ∧ ps.bindings.find? c = some (.singleton p) ∨
        ∃ fn, x.identity = .staticGeneric fn ∧ ps.bindings.find? c = some (.fresh p)) := by
  obtain ⟨b, hb⟩ := h.bound c (Array.getElem?_eq_some_iff.mp hk).1
  rcases h.binding c b hb with ⟨d, -, hd, -⟩ | ⟨-, p, x, hx, ho, rfl⟩
  · obtain ⟨v, hv⟩ := h.exists_needs ht hd
    exact absurd hv (hn v)
  · have hempty := h.empty p x hx ho
    refine ⟨p, x, hx, ho, hempty.slots, ?_⟩
    rcases hempty.kind with ⟨hid, hs⟩ | ⟨-, fn, -, -, hid, hs⟩
    · exact .inl ⟨hid, by rw [hb, hs]; rfl⟩
    · exact .inr ⟨fn.name, hid, by rw [hb, hs]; rfl⟩

/-- A closure that needs a variable is bound to an environment from which the variable can be
reached. -/
theorem exists_way {c : ClosureId} {k : Closure} {v : VarId} (hk : t.closures[c]? = some k)
    (hn : t.Needs c v) : ∃ d r way, ps.bindings.find? c = some (.direct d) ∧
      IsInnermost t ps (ps.neededBy c) d ∧ ps.varPlan.find? v = some r ∧ Walk ps d way r ∧
        ps.hops d r = .ok way := by
  obtain ⟨r, hr⟩ := h.linking.placed.covered v ⟨c, hn⟩
  have hrc := h.linking.vars c v r hn hr
  have hc : c < t.closures.size := (Array.getElem?_eq_some_iff.mp hk).1
  obtain ⟨b, hb⟩ := h.bound c hc
  rcases h.binding c b hb with ⟨d, rfl, hd⟩ | ⟨hnone, -⟩
  · obtain ⟨way, hway⟩ := Walk.exists_of_chain (h.closed.chain c d r hc hd hrc)
    obtain ⟨-, s, hs, -⟩ := id hd
    exact ⟨d, r, way, hb, hd, hr, hway,
      (h.linking.hops_eq_ok ht.preorder hs.lt_size).mpr hway⟩
  · rw [hnone] at hrc
    cases hrc

/-- The plans on the way from the environment of a closure come from scopes around the closure. -/
theorem around_of_walk {c : ClosureId} {k : Closure} {d b : Nat} {way : List PlanId}
    (hk : t.closures[c]? = some k) (hd : IsInnermost t ps (ps.neededBy c) d)
    (hway : Walk ps d way b) : ∀ q ∈ d :: way, ∃ o, ps.From q o ∧ Around t.scopes o k.scope := by
  refine hway.forall_mem (P := fun q => ∃ o, ps.From q o ∧ Around t.scopes o k.scope) ?_ ?_
  · obtain ⟨k', o, hk', ho, ha⟩ := h.linking.needed c d hd.1
    cases hk.symm.trans hk'
    exact ⟨o, ho, ha⟩
  · rintro p q ⟨s, hs, hsk⟩ hq
    obtain ⟨s', o, hs', ho, hos, -⟩ := h.linking.parent p q hq
    cases hs.unique hs'
    exact ⟨o, ho, hos.trans ht.preorder hsk⟩

/-- A link lies on the way from the environment of some closure to a variable that it needs. -/
theorem exists_way_through {p q : Nat} (hq : ps.parent? p = some q) :
    ∃ c d v r way, ps.bindings.find? c = some (.direct d) ∧ t.Needs c v ∧
      ps.varPlan.find? v = some r ∧ ps.hops d r = .ok way ∧ [p, q] <:+: d :: way := by
  obtain ⟨c, s, o, hps, hqo, ⟨u, e, z, hu, hue, hez, hsz⟩, v, r, y, hn, hv, hy, hyo⟩ :=
    h.linking.spanned p q hq
  have he := h.linking.vars c u e hu hue
  obtain ⟨k, -, hk, -⟩ := h.linking.needed c e he
  obtain ⟨d, r', way, hb, hd, hr', hway, hhops⟩ := h.exists_way ht hk hn
  cases hv.symm.trans hr'
  obtain ⟨-, x, hx, hin⟩ := hd
  obtain ⟨s', o', hs', ho', hos, -⟩ := h.linking.parent p q hq
  cases hps.unique hs'
  cases hqo.unique ho'
  -- the scope of the plan lies between those of the ends of the way
  obtain ⟨front, back, rfl, hfront, hback⟩ := h.linking.walk_through ht.preorder hway hx hy hps
    (.inr (hyo.trans_around ht.preorder hos)) (hsz.trans ht.preorder (hin e z he hez))
  refine ⟨c, d, v, r, _, hb, hn, hv, hhops, ?_⟩
  cases hback with
  | here =>
    cases hps.unique hy
    exact absurd (hyo.trans_around ht.preorder hos) (Around.irrefl ht.preorder)
  | @up _ q' _ back hq' =>
    cases hq.symm.trans hq'
    obtain ⟨init, hinit⟩ := hfront.exists_eq_append
    refine ⟨init, back, ?_⟩
    rw [← List.cons_append, hinit]
    simp

/-- Sound plans are exact. -/
theorem exact {a : Captures} (ha : a.Sound t) : ps.Exact t a where
  id := h.linking.placed.plan_id
  slot v hv := by
    obtain ⟨p, hp⟩ := h.linking.placed.covered v ((ha.captured v).mp hv)
    obtain ⟨x, hx, hvx⟩ := h.linking.placed.var_plan v p hp
    refine ⟨p, hp, fun q => ⟨?_, ?_⟩⟩
    · rintro ⟨y, hy, hvy⟩
      obtain ⟨-, hq, -⟩ := h.linking.placed.slot q y v hy hvy
      exact Option.some.inj (hq.symm.trans hp)
    · rintro rfl
      exact ⟨x, hx, hvx⟩
  increasing := h.linking.placed.slots
  declared p x v hx hv := by
    obtain ⟨-, -, y, -, hy, -⟩ := h.linking.placed.slot p x v hx hv
    obtain ⟨o, ho, hyo⟩ := h.linking.placed.declared p x v y hx hv hy
    exact ⟨y, o, hy, ho, hyo⟩
  reach c k hk hne := by
    obtain ⟨v₀, hv₀⟩ := List.exists_mem_of_ne_nil _ hne
    obtain ⟨d, -, -, hb, -⟩ := h.exists_way ht hk ((ha.needs c v₀).mp hv₀)
    refine ⟨d, hb, fun v hv => ?_⟩
    obtain ⟨d', r, way, hb', hd', hr, hway, hhops⟩ := h.exists_way ht hk ((ha.needs c v).mp hv)
    cases hb.symm.trans hb'
    exact ⟨r, way, hr, hhops, h.around_of_walk ht hk hd' hway⟩
  stateless c k hk hnil :=
    h.stateless ht hk fun v hv => List.not_mem_nil (hnil ▸ (ha.needs c v).mpr hv)
  parent p x q hx hq := by
    have hpq : ps.parent? p = some q := parent?_eq_some.mpr ⟨x, hx, hq⟩
    exact ⟨h.linking.parent p q hpq, h.linking.parent_lt ht.preorder hpq⟩
  link p x q hx hq := by
    obtain ⟨c, d, v, r, way, hb, hn, hr, hhops, hin⟩ :=
      h.exists_way_through ht (parent?_eq_some.mpr ⟨x, hx, hq⟩)
    exact ⟨c, d, v, r, way, hb, (ha.needs c v).mpr hn, hr, hhops, hin⟩

end Sound

end PlanTable

/-- Planning the environments of a bound module succeeds, and the plans are exact. -/
theorem planEnvironments_exact {unit : String} {m : Syntax.Module} {t : ScopeTree}
    (ht : bindModule m unit = .ok t) (options : LowerOptions) : ∃ a ps,
      Captures.analyze t = .ok a ∧ planEnvironments t a options = .ok ps ∧ ps.Exact t a := by
  obtain ⟨holds, h⟩ := wellBound_of_bindModule ht
  obtain ⟨a, ha, hsound⟩ := Captures.analyze_spec h
  obtain ⟨ps, hps, hplans, -⟩ := planEnvironments_spec h hsound options
  exact ⟨a, ps, ha, hps, hplans.exact h hsound⟩

/-- A source with a closure that captures a variable has plans, and they are exact. -/
theorem planEnvironments_exact_captureSource : ∃ t a ps,
    bindModule Syntax.captureSource "u" = .ok t ∧ Captures.analyze t = .ok a ∧
      planEnvironments t a ⟨.contained, true⟩ = .ok ps ∧ ps.Exact t a := by
  obtain ⟨t, ht⟩ := exists_captureTree
  obtain ⟨a, ps, ha, hps, hexact⟩ := planEnvironments_exact ht ⟨.contained, true⟩
  exact ⟨t, a, ps, ht, ha, hps, hexact⟩

end ClosureEnv
