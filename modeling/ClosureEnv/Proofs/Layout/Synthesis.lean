import ClosureEnv.Proofs.Layout.Account

/-!
# The environments of a synthesis

What a synthesis that succeeds has made, whatever the baseline: an environment for every plan, with
fields for the variables of the plan and a name of its own, and a name for every lambda
(`Synthesis.Sound`, `sound_of_synthesize`). It is read off the account of the synthesis.
-/

namespace ClosureEnv.Synthesis

variable {t : ScopeTree} {ps : PlanTable} {options : LowerOptions} {baseline : Option Baseline}
  {generation : Nat}

/-- What an environment has of the plan that it is made for. -/
structure MadeFor (x : Plan) (e : EnvType) : Prop where
  /-- It is kept as the plan says. -/
  kind : e.kind = x.repr
  /-- There is only one instance if the plan says so. -/
  isSingleton : e.isSingleton = x.isSingleton
  /-- It has the identity of the plan. -/
  identity : e.identity = x.identity
  /-- Its fields tell the variables of the plan apart. -/
  fields : HasFields x.slots e.fields

/-- What a synthesis has made. -/
structure Sound (t : ScopeTree) (ps : PlanTable) (s : Synthesis) : Prop where
  /-- There is an environment for every plan and no other. -/
  size : s.envs.size = ps.plans.size
  /-- Environments are made for their plans. -/
  env : ∀ (p : Nat) x e, ps.plans[p]? = some x → s.envs[p]? = some e → MadeFor x e
  /-- No two environments have one name. -/
  names : (s.envs.toList.map EnvType.name).Nodup
  /-- Every closure has a lambda. -/
  lambdas : ∀ (c : Nat) k, t.closures[c]? = some k →
    s.lambdaNames.find? c = some (lambdaOf t k)

/-- The variables of sound plans exist. -/
theorem exists_var (hps : ps.Sound t) {i : Nat} {p : Plan} (hp : ps.plans[i]? = some p) :
    ∀ v ∈ p.slots, ∃ x, t.vars[v]? = some x := by
  intro v hv
  obtain ⟨-, -, x, -, hx, -⟩ := hps.linking.placed.slot i p v hp hv
  exact ⟨x, hx⟩

/-- No variable has two slots of a plan. -/
theorem nodup_slots (hps : ps.Sound t) {i : Nat} {p : Plan} (hp : ps.plans[i]? = some p) :
    p.slots.Nodup :=
  (hps.linking.placed.slots i p hp).imp Nat.ne_of_lt

/-- The fields that are settled on tell the variables of the plan apart. -/
theorem Settled.hasFields {x : Settlement} (h : Settled t options baseline generation x)
    (hw : Wanted x.plan x.fields) (hs : x.plan.slots.Nodup) :
    HasFields x.plan.slots x.env.fields := by
  cases h.outcome with
  | minted count after _ _ _ hfields =>
    rw [hfields]
    exact hw.hasFields_newFields hs
  | reused prior appended _ _ happended _ _ hfields =>
    rw [hfields, happended]
    exact hw.hasFields_keptFields hs prior
  | superseded prior reason count after _ _ _ _ hfields =>
    rw [hfields]
    exact hw.hasFields_newFields hs

/-- What is settled is made for the plan. -/
theorem Settled.madeFor {x : Settlement} (h : Settled t options baseline generation x)
    (hw : Wanted x.plan x.fields) (hs : x.plan.slots.Nodup) : MadeFor x.plan x.env where
  kind := by rw [h.env]; rfl
  isSingleton := by rw [h.env]; rfl
  identity := by rw [h.env]; rfl
  fields := h.hasFields hw hs

namespace Account

variable {s : Synthesis} {xs : List Settlement}

/-- The environment of a plan is that of its settlement. -/
theorem exists_settlement (h : Account t ps options baseline s xs) {i : Nat} {e : EnvType}
    (he : s.envs[i]? = some e) : ∃ x, xs[i]? = some x ∧ x.env = e ∧ ps.plans[i]? = some x.plan := by
  rw [← Array.getElem?_toList, h.envs, List.getElem?_map, Option.map_eq_some_iff] at he
  obtain ⟨x, hx, rfl⟩ := he
  refine ⟨x, hx, rfl, ?_⟩
  rw [← Array.getElem?_toList, ← h.plans, List.getElem?_map, hx]
  rfl

/-- A settlement is that of a plan and of an environment. -/
theorem exists_position (h : Account t ps options baseline s xs) {x : Settlement} (hx : x ∈ xs) :
    ∃ i : Nat, ps.plans[i]? = some x.plan ∧ s.envs[i]? = some x.env := by
  obtain ⟨i, hi⟩ := List.mem_iff_getElem?.mp hx
  refine ⟨i, ?_, ?_⟩
  · rw [← Array.getElem?_toList, ← h.plans, List.getElem?_map, hi]
    rfl
  · rw [← Array.getElem?_toList, h.envs, List.getElem?_map, hi]
    rfl

/-- The fields of a settlement are as they are wanted. -/
theorem wanted (h : Account t ps options baseline s xs) (hn : t.WellNamed) (hps : ps.Sound t)
    {x : Settlement} (hx : x ∈ xs) : Wanted x.plan x.fields := by
  obtain ⟨i, hi, -⟩ := h.exists_position hx
  obtain ⟨fields, hf, hw⟩ := desiredFields_spec hn (exists_var hps hi)
  obtain rfl : fields = x.fields := Except.ok.inj (hf.symm.trans (h.settled x hx).fields)
  exact hw

/-- All names that a synthesis takes are different. -/
theorem nodup_names (h : Account t ps options baseline s xs) :
    (t.closures.toList.map (lambdaOf t) ++ s.envs.toList.map EnvType.name
      ++ s.carried.map (·.2.name)).Nodup := by
  obtain ⟨_, htakes⟩ := h.takes
  rw [h.envs, List.map_map]
  exact htakes.nodup

end Account

/-- The names of lambdas tell closures apart. -/
theorem lambdaOf_inj {holds : VarId → ClosureId → Prop} (h : t.WellBound holds)
    (hn : t.WellNamed) {c d : Nat} {k l : Closure}
    (hk : t.closures[c]? = some k) (hl : t.closures[d]? = some l)
    (heq : lambdaOf t k = lambdaOf t l) : c = d := by
  obtain ⟨hname, hordinal⟩ := Name.lambda_inj heq
  have hf := Array.getElem?_eq_getElem (h.closure_owner c k hk)
  have hg := Array.getElem?_eq_getElem (h.closure_owner d l hl)
  rw [hf, hg] at hname
  exact hn.ordinal c d k l hk hl (PlanTable.fn_name_inj hn hf hg hname) hordinal

/-- No two lambdas have one name. -/
theorem nodup_lambdaOf {holds : VarId → ClosureId → Prop} (h : t.WellBound holds)
    (hn : t.WellNamed) :
    (t.closures.toList.map (lambdaOf t)).Nodup := by
  rw [List.nodup_iff_getElem?_ne_getElem?]
  intro i j hij hj heq
  have hj' : j < t.closures.size := by simpa using hj
  have hi := Array.getElem?_eq_getElem (Nat.lt_trans hij hj')
  have hj := Array.getElem?_eq_getElem hj'
  rw [List.getElem?_map, List.getElem?_map, Array.getElem?_toList, Array.getElem?_toList, hi,
    hj] at heq
  exact absurd (lambdaOf_inj h hn hi hj (Option.some.inj heq)) (Nat.ne_of_lt hij)

/-- The lambdas of closures are found by their numbers. -/
theorem find?_lambdas {holds : VarId → ClosureId → Prop} (h : t.WellBound holds) {c : Nat}
    {k : Closure} (hk : t.closures[c]? = some k) :
    (SortedMap.ofList (t.closures.toList.map fun k => (k.id, lambdaOf t k))).find? c
      = some (lambdaOf t k) := by
  have hids : t.closures.toList.map Closure.id = List.range t.closures.size := by
    refine List.ext_getElem? fun i => ?_
    rw [List.getElem?_map, Array.getElem?_toList]
    cases hi : t.closures[i]? with
    | none =>
      rw [List.getElem?_eq_none (by
        rw [List.length_range]
        exact Array.getElem?_eq_none_iff.mp hi)]
      rfl
    | some k' =>
      rw [List.getElem?_range (Array.getElem?_eq_some_iff.mp hi).1, Option.map_some,
        h.closure_id i k' hi]
  refine SortedMap.find?_ofList_of_mem ?_ ?_
  · rw [List.map_map]
    exact hids ▸ List.nodup_range
  · exact List.mem_map.mpr ⟨k, Array.mem_toList_iff.mpr (Array.mem_of_getElem? hk), by
      rw [h.closure_id c k hk]⟩

/-- A synthesis that succeeds has made what is planned. -/
theorem sound_of_synthesize {holds : VarId → ClosureId → Prop} (h : t.WellBound holds)
    (hn : t.WellNamed) (hps : ps.Sound t) {s : Synthesis}
    (hs : synthesize t ps options baseline = .ok s) : s.Sound t ps := by
  obtain ⟨xs, haccount⟩ := account_of_synthesize h hps hs
  constructor
  · rw [← Array.length_toList, haccount.envs, List.length_map, ← Array.length_toList,
      ← haccount.plans, List.length_map]
  · intro p x e hx he
    obtain ⟨y, hy, rfl, hplan⟩ := haccount.exists_settlement he
    obtain rfl : x = y.plan := Option.some.inj (hx.symm.trans hplan)
    have hmem := List.mem_of_getElem? hy
    exact (haccount.settled y hmem).madeFor (haccount.wanted hn hps hmem) (nodup_slots hps hx)
  · exact (List.nodup_append.mp (List.nodup_append.mp haccount.nodup_names).1).2.1
  · intro c k hk
    rw [haccount.lambdas]
    exact find?_lambdas h hk

end ClosureEnv.Synthesis
