import ClosureEnv.Proofs.Layout.Again
import ClosureEnv.Proofs.Layout.History
import ClosureEnv.Proofs.Local.Numbers

/-!
# Layouts that two units share

A synthesis that starts from the layouts that another one has left takes them over for all plans
that are wanted alike in both (`PlansAlike`), whatever else there is to plan in the two units. A
plan is wanted alike if its parent is, so that the induction is along parents.
-/

namespace ClosureEnv

namespace Synthesis

variable {t t' : ScopeTree} {ps ps' : PlanTable} {options : LowerOptions}
  {baseline : Option Baseline} {b : Baseline} {s s' : Synthesis} {xs xs' : List Settlement}

/-- Plans of two units that want the same of their environments. -/
structure PlanAlike (t t' : ScopeTree) (r : PlanId → PlanId → Prop) (p p' : Plan) : Prop where
  identity : p'.identity = p.identity
  repr : p'.repr = p.repr
  isSingleton : p'.isSingleton = p.isSingleton
  fields : desiredFields t' p' = desiredFields t p
  parent : Option.Rel r p.parent p'.parent

/-- Numbers that stand for plans which want the same. -/
def PlansAlike (t t' : ScopeTree) (ps ps' : PlanTable) (r : PlanId → PlanId → Prop) : Prop :=
  ∀ p p', r p p' → ∃ x x', ps.plans[p]? = some x ∧ ps'.plans[p']? = some x' ∧ PlanAlike t t' r x x'

/-- The environment of `x'` takes over the layout that the environment of `x` has left. -/
structure TakenOver (x x' : Settlement) : Prop where
  identity : x'.env.identity = x.env.identity
  name : x'.env.name = x.env.name
  kind : x'.env.kind = x.env.kind
  parent : x'.env.parent = x.env.parent
  fields : x'.env.fields.map (fun f => (f.name, f.ty)) = x.env.fields.map fun f => (f.name, f.ty)
  record : x'.record = (x.env.identity.text, .unchanged x.env.name)

/-- The settlement of a plan. -/
theorem Account.exists_of_plan (h : Account t ps options baseline s xs) {p : Nat} {y : Plan}
    (hy : ps.plans[p]? = some y) : ∃ x ∈ xs, x.plan = y ∧ s.envs[p]? = some x.env := by
  rw [← Array.getElem?_toList, ← h.plans, List.getElem?_map, Option.map_eq_some_iff] at hy
  obtain ⟨x, hx, rfl⟩ := hy
  refine ⟨x, List.mem_of_getElem? hx, rfl, ?_⟩
  rw [← Array.getElem?_toList, h.envs, List.getElem?_map, hx]
  rfl

/-- What became of the identity of a plan is recorded once. -/
theorem Account.mem_transitions_iff (h : Account t ps options baseline s xs) (hps : ps.Sound t)
    (hn : t.WellNamed) {x : Settlement} (hx : x ∈ xs) (tr : Transition) :
    (x.plan.identity.text, tr) ∈ s.report.transitions ↔ (x.plan.identity.text, tr) = x.record := by
  rw [h.transitions, List.mem_append]
  constructor
  · rintro (hmem | hmem)
    · obtain ⟨y, hy, hrecord⟩ := List.mem_map.mp hmem
      cases h.eq_of_identity hps hn hy hx (congrArg Prod.fst hrecord)
      exact hrecord.symm
    · obtain ⟨e, he, hleaving⟩ := List.mem_map.mp hmem
      have hkey : e.1 = x.plan.identity.text := congrArg Prod.fst hleaving
      -- what is left is of none of the plans
      have hproduced : x.plan.identity.text ∈ producedBy ps := by
        rw [producedBy, ← h.plans, List.map_map]
        exact List.mem_map_of_mem (f := fun x : Settlement => x.plan.identity.text) hx
      have hleft := (List.mem_filter.mp he).2
      rw [isLeft, hkey, List.contains_iff_mem.mpr hproduced] at hleft
      cases hleft
  · exact fun hrecord => .inl (List.mem_map.mpr ⟨x, hx, hrecord.symm⟩)

/-- A plan that is wanted alike, with a parent of the same name, takes over the layout that was
left. -/
theorem Settled.takenOver {generation generation' : Nat} {x x' : Settlement}
    {r : PlanId → PlanId → Prop} (h : Settled t options baseline generation x)
    (h' : Settled t' options (some b) generation' x') (hw : Wanted x.plan x.fields)
    (hb : priorOf (some b) x.plan = some x.env.layout) (halike : PlanAlike t t' r x.plan x'.plan)
    (hparent : x'.env.parent = x.env.parent) : TakenOver x x' := by
  have hfields : x'.fields = x.fields :=
    Except.ok.inj (h'.fields.symm.trans (halike.fields.trans h.fields))
  -- The layout fits what is wanted now, since it was made for the same.
  have hdecision : x'.decision = .reuse x.env.layout [] := by
    rw [h'.decision, ← h.decisionOn_again hw hb]
    simp only [decisionOn, halike.identity, halike.repr, halike.isSingleton, hfields, hparent]
  have hidentity : x.env.identity = x.plan.identity := by rw [h.env]; rfl
  have hidentity' : x'.env.identity = x.env.identity := by
    rw [h'.env, hidentity]
    exact halike.identity
  obtain ⟨hname, hkept⟩ : x'.env.name = x.env.name ∧
      x'.env.fields = keptFields x'.plan x'.fields x.env.layout [] := by
    have hfollows := h'.follows
    rw [hdecision] at hfollows
    generalize hn : x'.env.name = name at hfollows
    generalize hf : x'.env.fields = fields at hfollows
    generalize x'.env.generation = m at hfollows
    cases hfollows
    exact ⟨rfl, rfl⟩
  refine ⟨hidentity', hname, ?_, hparent, ?_, ?_⟩
  · rw [h'.env, h.env]
    exact halike.repr
  · rw [hkept, keptFields, List.append_nil, List.map_map]
    show (x.env.fields.map _).map _ = _
    rw [List.map_map]
    rfl
  · simp only [Settlement.record, Settlement.transition, hdecision, List.isEmpty_nil, if_true,
      halike.identity, hidentity]
    rfl

/-- Plans that are wanted alike take over the layouts that were left. -/
theorem Account.takenOver (h : Account t ps options baseline s xs)
    (h' : Account t' ps' options (some b) s' xs') (hn : t.WellNamed) (hps : ps.Sound t)
    (hpre : Preorder t.scopes) (hb : ∀ x ∈ xs, priorOf (some b) x.plan = some x.env.layout)
    {r : PlanId → PlanId → Prop} (halike : PlansAlike t t' ps ps' r) (p : Nat) :
    ∀ p', r p p' → ∃ x ∈ xs, ∃ x' ∈ xs', ps.plans[p]? = some x.plan ∧
      ps'.plans[p']? = some x'.plan ∧ s.envs[p]? = some x.env ∧ s'.envs[p']? = some x'.env ∧
      TakenOver x x' := by
  induction p using Nat.strongRecOn with
  | ind p ih =>
    intro p' hpp
    obtain ⟨y, y', hy, hy', hyy⟩ := halike p p' hpp
    obtain ⟨x, hx, rfl, he⟩ := h.exists_of_plan hy
    obtain ⟨x', hx', rfl, he'⟩ := h'.exists_of_plan hy'
    refine ⟨x, hx, x', hx', hy, hy', he, he', ?_⟩
    refine (h.settled x hx).takenOver (h'.settled x' hx') (h.wanted hn hps hx) (hb x hx) hyy ?_
    -- the parents took over their layouts, and with them their names
    have hname := h.parents x hx
    have hname' := h'.parents x' hx'
    unfold parentName at hname hname'
    have hparents := hyy.parent
    generalize hq : x.plan.parent = q at hparents hname
    generalize x'.plan.parent = q' at hparents hname'
    cases hparents with
    | none => exact (Except.ok.inj hname').symm.trans (Except.ok.inj hname)
    | @some q q' hqq =>
      have hlt := hps.linking.parent_lt hpre (PlanTable.parent?_eq_some.mpr ⟨_, hy, hq⟩)
      obtain ⟨z, -, z', -, -, -, hz, hz', hzz⟩ := ih q hlt q' hqq
      dsimp only at hname hname'
      rw [hz] at hname
      rw [hz'] at hname'
      rw [← Except.ok.inj hname, ← Except.ok.inj hname', hzz.name]

end Synthesis

end ClosureEnv
