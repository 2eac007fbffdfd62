import ClosureEnv.Proofs.Bound.Scoped
import ClosureEnv.Proofs.Graph.Closed
import ClosureEnv.Proofs.Plan.Homes
import ClosureEnv.Proofs.Plan.Passes
import ClosureEnv.Proofs.Plan.Stateless

/-!
# Sound plans

Planning the environments of a sound tree succeeds (`planEnvironments_spec`), and the plans are what
running relies on: `PlanTable.Sound` gathers where captured variables are held, how environments are
linked, which environment each closure gets, and that whatever an escaping closure can reach is kept
on the heap.
-/

namespace ClosureEnv

namespace PlanTable

variable {t : ScopeTree} {holds : VarId → ClosureId → Prop} {ps : PlanTable}

/-- The environment of a plan is kept on the heap. -/
def OnHeap (ps : PlanTable) (p : PlanId) : Prop :=
  ∃ x, ps.plans[p]? = some x ∧ x.repr = .reference

/-- Plans that running can rely on. -/
structure Sound (t : ScopeTree) (ps : PlanTable) : Prop where
  /-- Captured variables are held by plans of scopes, and those are linked. -/
  linking : Linking t t.Captured ps
  /-- They are linked in full. -/
  closed : Closed t ps
  /-- Other plans are empty. -/
  empty : ∀ (p : Nat) x, ps.plans[p]? = some x → x.origin = none → IsEmpty t x
  /-- Identities tell plans apart if names tell the parts of the tree apart. -/
  identity : t.WellNamed → ∀ (p q : Nat) x y, ps.plans[p]? = some x → ps.plans[q]? = some y →
    x.identity = y.identity → p = q
  /-- Every closure is bound. -/
  bound : ∀ c : Nat, c < t.closures.size → ∃ b, ps.bindings.find? c = some b
  /-- To the innermost plan that it needs, or else to an empty one. -/
  binding : ∀ c b, ps.bindings.find? c = some b →
    (∃ d, b = .direct d ∧ IsInnermost t ps (ps.neededBy c) d) ∨
    ps.neededBy c = [] ∧ ∃ p x, ps.plans[p]? = some x ∧ x.origin = none ∧
      b = if x.isSingleton then .singleton p else .fresh p
  /-- The parents of environments on the heap are on the heap. -/
  heap_parent : ∀ p q, ps.OnHeap p → ps.parent? p = some q → ps.OnHeap q
  /-- The environments of escaping closures are on the heap. -/
  heap_escaping : ∀ c d, t.Escaping c → ps.bindings.find? c = some (.direct d) → ps.OnHeap d

/-! ## Needs -/

/-- The plans of what one closure needs are noted. -/
theorem addNeeds_run {a : Captures} {k : Closure}
    (hplan : ∀ v ∈ a.needs k.id, ∃ p, ps.varPlan.find? v = some p) :
    ∃ plans, addNeeds a ps k =
        .ok { ps with needed := ps.needed.insert k.id (SortedSet.ofList plans) } ∧
      ∀ p, p ∈ plans ↔ ∃ v ∈ a.needs k.id, ps.varPlan.find? v = some p := by
  obtain ⟨plans, hplans, hof, hall⟩ := Lower.mapM_spec (f := fun v =>
      orInconsistent (.variableWithoutPlan v) (ps.varPlan.find? v))
    (P := fun v p => ps.varPlan.find? v = some p) (l := a.needs k.id) fun v hv => by
      obtain ⟨p, hp⟩ := hplan v hv
      exact ⟨p, Lower.orInconsistent_eq_ok.mpr hp, hp⟩
  refine ⟨plans, Lower.bind_eq_ok.mpr ⟨plans, hplans, rfl⟩, fun p => ⟨hof p, ?_⟩⟩
  rintro ⟨v, hv, hvp⟩
  obtain ⟨p', hp', hvp'⟩ := hall v hv
  cases hvp.symm.trans hvp'
  exact hp'

/-- The plans of what closures need are noted, one closure after another. -/
theorem foldlM_addNeeds {a : Captures}
    (hplan : ∀ c, ∀ v ∈ a.needs c, ∃ p, ps.varPlan.find? v = some p) (hnone : ps.needed = [])
    (ks : List Closure) : ∃ needed, ks.foldlM (addNeeds a) ps = .ok { ps with needed } ∧
      ∀ c p, p ∈ (needed.find? c).getD [] ↔
        (∃ k ∈ ks, k.id = c) ∧ ∃ v ∈ a.needs c, ps.varPlan.find? v = some p := by
  obtain ⟨_, hnext, needed, rfl, hneeded⟩ := Lower.foldlM_ok (l := ks) (b := ps)
    (f := addNeeds a) (fun done next => ∃ needed, next = { ps with needed } ∧
      ∀ c p, p ∈ (needed.find? c).getD [] ↔
        (∃ k ∈ done, k.id = c) ∧ ∃ v ∈ a.needs c, ps.varPlan.find? v = some p)
    ⟨ps.needed, rfl, fun c p => by rw [hnone]; simp [SortedMap.find?]⟩
    (by
      rintro done k rest _ - ⟨needed, rfl, hneeded⟩
      have hplanned : ∀ v ∈ a.needs k.id,
          ∃ p, ({ ps with needed } : PlanTable).varPlan.find? v = some p := hplan k.id
      obtain ⟨plans, hrun, hplans⟩ := addNeeds_run hplanned
      refine ⟨_, hrun, _, rfl, fun c p => ?_⟩
      by_cases hc : c = k.id
      · subst hc
        rw [SortedMap.find?_insert_self, Option.getD_some, SortedSet.mem_ofList, hplans]
        exact ⟨fun hv => ⟨⟨k, List.mem_append_right _ (List.mem_singleton.mpr rfl), rfl⟩, hv⟩,
          And.right⟩
      · rw [SortedMap.find?_insert_of_ne hc, hneeded]
        simp [Ne.symm hc])
  exact ⟨needed, hnext, hneeded⟩

/-- Once the needs of all closures are noted, the plans are linked, but for the parents. -/
theorem addNeeds_spec (h : t.WellBound holds) {a : Captures} (ha : a.Sound t) {cs : Candidates}
    (hcs : Candidates.Sound t t.Captured cs) (hmade : Made t cs ps) :
    ∃ next, t.closures.toList.foldlM (addNeeds a) ps = .ok next ∧ Linking t t.Captured next ∧
      next.bindings = [] ∧ Aligned ps next := by
  have hplaced := hmade.placed hcs
  obtain ⟨needed, hnext, hneeded⟩ := foldlM_addNeeds
    (fun c v hv => hplaced.covered v ⟨c, (ha.needs c v).mp hv⟩) hmade.needed t.closures.toList
  have hmem (c : ClosureId) (p : PlanId) : p ∈ neededBy { ps with needed } c ↔
      ∃ v, t.Needs c v ∧ ps.varPlan.find? v = some p := by
    simp only [← ha.needs]
    refine (hneeded c p).trans ⟨And.right, fun hv => ⟨?_, hv⟩⟩
    obtain ⟨v, hn, -⟩ := hv
    obtain ⟨k, -, hk, -⟩ := h.exists_of_needs ((ha.needs c v).mp hn)
    exact ⟨k, Array.mem_toList_iff.mpr (Array.mem_of_getElem? hk), h.closure_id c k hk⟩
  have halike : Aligned ps { ps with needed } := .of_plans rfl rfl rfl
  have hnone (p q : PlanId) (hp : parent? { ps with needed } p = some q) : False := by
    obtain ⟨x, hx, hq⟩ := Option.bind_eq_some_iff.mp hp
    obtain ⟨e, -, rfl⟩ := hmade.exists_candidate hx
    cases hq
  refine ⟨_, hnext, ⟨halike.placed hplaced, fun p q hp => (hnone p q hp).elim, fun c p hp => ?_,
    fun c v p hn hv => (hmem c p).mpr ⟨v, hn, hv⟩, fun c p hp => .inl ((hmem c p).mp hp),
    fun p q hp => (hnone p q hp).elim⟩, hmade.bindings, halike⟩
  obtain ⟨v, hn, hv⟩ := (hmem c p).mp hp
  obtain ⟨k, x, hk, hx⟩ := h.exists_of_needs hn
  obtain ⟨y, hy, hvy⟩ := hplaced.var_plan v p hv
  obtain ⟨-, -, x', o, hx', ho, hclear⟩ := hplaced.slot p y v hy hvy
  cases hx.symm.trans hx'
  exact ⟨k, o, hk, ⟨y, hy, ho⟩, hclear.1.trans_around h.preorder (h.around_of_needs hn hk hx)⟩

/-! ## Representations -/

/-- The table with some more plans on the heap. -/
def onHeapToo (ps : PlanTable) (m : List PlanId) : PlanTable :=
  { ps with plans := ps.plans.map fun x =>
      if m.contains x.id then { x with repr := .reference } else x }

/-- Putting plans on the heap changes nothing else. -/
theorem alike_onHeapToo (ps : PlanTable) (m : List PlanId) : Alike ps (ps.onHeapToo m) := by
  refine ⟨rfl, rfl, fun p => ?_⟩
  unfold onHeapToo
  dsimp only
  rw [Array.getElem?_map]
  cases ps.plans[p]? with
  | none => rfl
  | some x =>
    simp only [Option.map_some]
    split <;> rfl

/-- Putting plans on the heap leaves parents alone. -/
theorem parent?_onHeapToo (ps : PlanTable) (m : List PlanId) (p : PlanId) :
    (ps.onHeapToo m).parent? p = ps.parent? p := by
  unfold parent? onHeapToo
  dsimp only
  rw [Array.getElem?_map]
  cases ps.plans[p]? with
  | none => rfl
  | some x =>
    simp only [Option.map_some, Option.bind_some]
    split <;> rfl

/-- The plans of a table with more plans on the heap, if plans are numbered by position. -/
theorem getElem?_onHeapToo (hid : ∀ (p : Nat) x, ps.plans[p]? = some x → x.id = p)
    (m : List PlanId) (p : Nat) : (ps.onHeapToo m).plans[p]? =
      ps.plans[p]?.map fun x => if p ∈ m then { x with repr := .reference } else x := by
  unfold onHeapToo
  dsimp only
  rw [Array.getElem?_map]
  cases hx : ps.plans[p]? with
  | none => rfl
  | some x => simp [hid p x hx]

/-- On the heap are the plans that were there, and those more. -/
theorem onHeap_onHeapToo (hid : ∀ (p : Nat) x, ps.plans[p]? = some x → x.id = p)
    {m : List PlanId} {p : PlanId} :
    (ps.onHeapToo m).OnHeap p ↔ p < ps.plans.size ∧ (p ∈ m ∨ ps.OnHeap p) := by
  unfold OnHeap
  rw [getElem?_onHeapToo hid]
  by_cases hlt : p < ps.plans.size
  · rw [Array.getElem?_eq_getElem hlt]
    by_cases hm : p ∈ m <;> simp [hm, hlt]
  · rw [Array.getElem?_eq_none (Nat.le_of_not_lt hlt)]
    simp [hlt]

/-- A plan that is on the heap already was found to belong there. -/
theorem mem_heapPlans_of_onHeap (hid : ∀ (p : Nat) x, ps.plans[p]? = some x → x.id = p)
    {p : PlanId} (h : ps.OnHeap p) : p ∈ ps.heapPlans t := by
  obtain ⟨x, hx, hr⟩ := h
  refine Graph.mem_reachable_of_mem (List.mem_append_right _ (List.mem_map.mpr ⟨x, ?_, ?_⟩))
  · exact List.mem_filter.mpr ⟨Array.mem_toList_iff.mpr (Array.mem_of_getElem? hx), by simp [hr]⟩
  · exact hid p x hx

/-- The search begins at plans on the heap, apart from those of escaping closures. -/
theorem onHeap_of_stated (hid : ∀ (p : Nat) x, ps.plans[p]? = some x → x.id = p) {p : PlanId}
    (h : p ∈ (ps.plans.toList.filter (·.repr == .reference)).map Plan.id) : ps.OnHeap p := by
  obtain ⟨x, hx, rfl⟩ := List.mem_map.mp h
  obtain ⟨hx, hr⟩ := List.mem_filter.mp hx
  obtain ⟨i, hi⟩ := List.mem_iff_getElem?.mp hx
  rw [Array.getElem?_toList] at hi
  rw [hid i x hi]
  exact ⟨x, hi, by simpa using hr⟩

/-- Telling how environments are kept changes nothing else. -/
theorem alike_assignRepresentations (t : ScopeTree) (ps : PlanTable) :
    Alike ps (ps.assignRepresentations t) :=
  alike_onHeapToo ps (ps.heapPlans t)

/-- Telling how environments are kept leaves parents alone. -/
theorem parent?_assignRepresentations (t : ScopeTree) (ps : PlanTable) (p : PlanId) :
    (ps.assignRepresentations t).parent? p = ps.parent? p :=
  parent?_onHeapToo ps (ps.heapPlans t) p

/-- The environments on the heap are those that were found to belong there. -/
theorem onHeap_iff (hps : Placed t t.Captured ps) {p : Nat} (hp : p < ps.plans.size) :
    (ps.assignRepresentations t).OnHeap p ↔ p ∈ ps.heapPlans t := by
  have hheap : (ps.assignRepresentations t).OnHeap p ↔
      p < ps.plans.size ∧ (p ∈ ps.heapPlans t ∨ ps.OnHeap p) := onHeap_onHeapToo hps.plan_id
  rw [hheap]
  constructor
  · rintro ⟨-, hmem | hmem⟩
    · exact hmem
    · exact mem_heapPlans_of_onHeap hps.plan_id hmem
  · exact fun hmem => ⟨hp, .inl hmem⟩

/-- The plans whose environments have to be on the heap. -/
inductive InHeap (t : ScopeTree) (ps : PlanTable) : PlanId → Prop where
  /-- The plan says so. -/
  | stated {p : PlanId} {x : Plan} : ps.plans[p]? = some x → x.repr = .reference → InHeap t ps p
  /-- An escaping closure is bound to it. -/
  | escaping {c : ClosureId} {d : PlanId} : t.Escaping c →
      ps.bindings.find? c = some (.direct d) → InHeap t ps d
  /-- What is on the heap refers to it. -/
  | parent {p q : PlanId} : InHeap t ps p → ps.parent? p = some q → InHeap t ps q

/-- A parent exists. -/
theorem Linking.parent_lt_size {captured : VarId → Prop} (hl : Linking t captured ps)
    {p q : Nat} (hq : ps.parent? p = some q) : q < ps.plans.size := by
  obtain ⟨s, o, hp, hqo, -⟩ := hl.parent p q hq
  exact hqo.lt_size

/-- A plan that a closure is bound to exists. -/
theorem Bound.lt_size_of_direct {captured : VarId → Prop} (hb : Bound t captured ps) {c : ClosureId}
    {d : PlanId} (hc : ps.bindings.find? c = some (.direct d)) : d < ps.plans.size := by
  obtain ⟨d', heq, -, s, hs, -⟩ := hb.direct c _ hc
  cases heq
  exact hs.lt_size

/-- The search begins at plans that exist and whose environments have to be on the heap. -/
theorem Bound.inHeap_of_root {captured : VarId → Prop} (hb : Bound t captured ps)
    (h : t.WellBound holds) {p : PlanId} (hp : p ∈ t.closures.toList.filterMap ps.escapingPlan? ++
      (ps.plans.toList.filter (·.repr == .reference)).map Plan.id) :
    p < ps.plans.size ∧ InHeap t ps p := by
  rcases List.mem_append.mp hp with hp | hp
  · obtain ⟨k, hk, hp⟩ := List.mem_filterMap.mp hp
    obtain ⟨c, hc⟩ := List.mem_iff_getElem?.mp hk
    rw [Array.getElem?_toList] at hc
    unfold escapingPlan? at hp
    split at hp
    · next hesc hd =>
      cases hp
      exact ⟨hb.lt_size_of_direct hd, .escaping ⟨k, (h.closure_id c k hc).symm ▸ hc, hesc⟩ hd⟩
    · cases hp
  · obtain ⟨x, hx, hr⟩ := onHeap_of_stated hb.linking.placed.plan_id hp
    exact ⟨(Array.getElem?_eq_some_iff.mp hx).1, .stated hx hr⟩

/-- On the heap are the environments that have to be there, and no others. -/
theorem Bound.onHeap_iff_inHeap (hb : Bound t t.Captured ps) (h : t.WellBound holds) {p : PlanId} :
    (ps.assignRepresentations t).OnHeap p ↔ InHeap t ps p := by
  have hplaced := hb.linking.placed
  constructor
  · rintro ⟨x, hx, hr⟩
    have hlt : p < ps.plans.size := by
      rw [← (alike_assignRepresentations t ps).size]
      exact (Array.getElem?_eq_some_iff.mp hx).1
    have hmem := (onHeap_iff hplaced hlt).mp ⟨x, hx, hr⟩
    exact Graph.of_mem_reachable (S := InHeap t ps) (fun p hp => (hb.inHeap_of_root h hp).2)
      (fun p hp q hq => hp.parent (Option.mem_toList.mp hq)) hmem
  · intro hp
    suffices hmem : p < ps.plans.size ∧ p ∈ ps.heapPlans t from (onHeap_iff hplaced hmem.1).mpr hmem.2
    induction hp with
    | @stated p x hx hr =>
      exact ⟨(Array.getElem?_eq_some_iff.mp hx).1,
        mem_heapPlans_of_onHeap hplaced.plan_id ⟨x, hx, hr⟩⟩
    | @escaping c d hesc hd =>
      obtain ⟨k, hk, hesc⟩ := hesc
      refine ⟨hb.lt_size_of_direct hd, Graph.mem_reachable_of_mem (List.mem_append_left _ ?_)⟩
      refine List.mem_filterMap.mpr ⟨k, Array.mem_toList_iff.mpr (Array.mem_of_getElem? hk), ?_⟩
      simp [escapingPlan?, hesc, h.closure_id c k hk, hd]
    | @parent p q _ hq ih =>
      refine ⟨hb.linking.parent_lt_size hq,
        Graph.mem_reachable_of_mem_next (fun p hp => (hb.inHeap_of_root h hp).1)
          (fun x _ y hy => hb.linking.parent_lt_size (Option.mem_toList.mp hy)) ih.2 ?_⟩
      exact Option.mem_toList.mpr hq

/-! ## The whole plan -/

/-- Parents come before their children. -/
theorem Linking.parent_lt {captured : VarId → Prop} (hl : Linking t captured ps)
    (hpre : Preorder t.scopes) {p q : Nat} (hq : ps.parent? p = some q) : q < p := by
  obtain ⟨s, o, hp, hqo, ha, -⟩ := hl.parent p q hq
  exact hl.placed.lt_of_around hpre hp hqo ha

/-- The chain of parents from a plan ends: their numbers get smaller. -/
theorem Linking.checkChain_ok {captured : VarId → Prop} (hl : Linking t captured ps)
    (hpre : Preorder t.scopes) (start : PlanId) {bound p : Nat} (hp : p < bound)
    (hlt : p < ps.plans.size) : ps.checkChain start bound (some p) = .ok () := by
  induction bound generalizing p with
  | zero => exact absurd hp (Nat.not_lt_zero _)
  | succ bound ih =>
    have hx : ps.plans[p]? = some ps.plans[p] := Array.getElem?_eq_getElem hlt
    rw [checkChain, plan_eq_ok.mpr hx, Lower.ok_bind]
    cases hq : ps.plans[p].parent with
    | none => cases bound <;> rfl
    | some q =>
      have hpq : ps.parent? p = some q := by simp [parent?, hx, hq]
      have hqp : q < p := hl.parent_lt hpre hpq
      exact ih (Nat.lt_of_lt_of_le hqp (Nat.le_of_lt_succ hp)) (hl.parent_lt_size hpq)

/-- Every chain of parents ends. -/
theorem Linking.checkForest_ok {captured : VarId → Prop} (hl : Linking t captured ps)
    (hpre : Preorder t.scopes) : ps.checkForest = .ok () := by
  refine Lower.forM_ok fun x hx => ?_
  obtain ⟨p, hp⟩ := List.mem_iff_getElem?.mp hx
  rw [Array.getElem?_toList] at hp
  cases hq : x.parent with
  | none => cases ps.plans.size <;> rfl
  | some q =>
    have hlt := hl.parent_lt_size (show ps.parent? p = some q by simp [parent?, hp, hq])
    exact hl.checkChain_ok hpre x.id hlt hlt

/-- Functions with one name are one. -/
theorem fn_name_inj (hn : t.WellNamed) {i j : Nat} {f g : Function} (hf : t.fns[i]? = some f)
    (hg : t.fns[j]? = some g) (heq : f.name = g.name) : i = j := by
  have hnodup := (List.nodup_append.mp hn.items).1
  have hname (i : Nat) (f : Function) (hf : t.fns[i]? = some f) :
      (t.fns.toList.map Function.name)[i]? = some f.name := by
    simp [hf]
  have hlt : i < (t.fns.toList.map Function.name).length := by
    simpa using (Array.getElem?_eq_some_iff.mp hf).1
  exact (List.getElem?_inj hlt hnodup).mp ((hname i f hf).trans (heq ▸ (hname j g hg).symm))

/-- What holds of the plans of scopes, before the empty ones come in. -/
structure Settled (t : ScopeTree) (ps : PlanTable) : Prop where
  /-- The plans are linked. -/
  linking : Linking t t.Captured ps
  /-- They are linked in full. -/
  closed : Closed t ps
  /-- Every plan comes from a scope. -/
  origin : ∀ (p : Nat) x, ps.plans[p]? = some x → x.origin ≠ none
  /-- A closure that is bound is bound to the innermost plan that it needs. -/
  direct : ∀ c b, ps.bindings.find? c = some b → ∃ d, b = .direct d ∧
    IsInnermost t ps (ps.neededBy c) d
  /-- A closure that needs something is bound. -/
  bound : ∀ c p, p ∈ ps.neededBy c → ∃ b, ps.bindings.find? c = some b
  /-- The parents of environments on the heap are on the heap. -/
  heap_parent : ∀ p q, ps.OnHeap p → ps.parent? p = some q → ps.OnHeap q
  /-- The environments of escaping closures are on the heap. -/
  heap_escaping : ∀ c d, t.Escaping c → ps.bindings.find? c = some (.direct d) → ps.OnHeap d

/-- Once closures are bound, environments are told how they are kept. -/
theorem Bound.settled (hb : Bound t t.Captured ps) (h : t.WellBound holds)
    (horigin : ∀ (p : Nat) x, ps.plans[p]? = some x → x.origin ≠ none) :
    Settled t (ps.assignRepresentations t) := by
  have hlike := alike_assignRepresentations t ps
  have hparent := parent?_assignRepresentations t ps
  have hinner (plans : List PlanId) (d : PlanId) :
      IsInnermost t (ps.assignRepresentations t) plans d ↔ IsInnermost t ps plans d := by
    unfold IsInnermost
    simp only [hlike.from_iff]
  constructor
  · exact
    { placed := hlike.placed hb.linking.placed
      parent := fun p q hq => hlike.nearest_iff.mpr (hb.linking.parent p q (hparent p ▸ hq))
      needed := fun c p hp => by
        obtain ⟨k, o, hk, ho, hok⟩ := hb.linking.needed c p hp
        exact ⟨k, o, hk, hlike.from_iff.mpr ho, hok⟩
      vars := hb.linking.vars
      cause := fun c p hp => (hb.linking.cause c p hp).mono hlike.varPlan
        (fun _ _ => hlike.from_iff.mpr) fun p q hq => (hparent p).trans hq
      spanned := fun p q hq => (hb.linking.spanned p q (hparent p ▸ hq)).mono hlike.varPlan
        fun _ _ => hlike.from_iff.mpr }
  · exact
    { chain := fun c d p hc hd hp => by
        refine Relation.ReflTransGen.mono ?_ _ _
          (hb.closed.chain c d p hc ((hinner _ d).mp hd) hp)
        exact fun a b hab => (hparent a).trans hab
      parents := fun c p q s o hq hs ho => hb.closed.parents c p q s o (hparent p ▸ hq)
        (hlike.from_iff.mp hs) (hlike.from_iff.mp ho)
      closures := fun c d k p o hk hp ho => hb.closed.closures c d k p o hk hp
        (hlike.from_iff.mp ho) }
  · intro p x hx
    obtain ⟨y, hy, hplace⟩ := hlike.exists_plan hx
    have ho : y.origin = x.origin := (congrArg Plan.origin hplace :)
    exact ho ▸ horigin p y hy
  · intro c b hc
    obtain ⟨d, rfl, hd⟩ := hb.direct c b hc
    exact ⟨d, rfl, (hinner _ d).mpr hd⟩
  · exact hb.bound
  · intro p q hp hq
    rw [hb.onHeap_iff_inHeap h] at hp ⊢
    exact hp.parent (hparent p ▸ hq)
  · exact fun c d hesc hd => (hb.onHeap_iff_inHeap h).mpr (.escaping hesc hd)

section Served

variable {closures : List (ClosureId × Option FnId)} {done : List (Option FnId)} {next : PlanTable}

/-- What is on the heap stays there. -/
theorem Extends.onHeap (h : Extends t ps next) {p : PlanId} (hp : ps.OnHeap p) : next.OnHeap p := by
  obtain ⟨x, hx, hr⟩ := hp
  exact ⟨x, h.old p x hx, hr⟩

/-- Empty plans of one identity have one owner. -/
theorem Served.owner_eq (hs : Served t ps closures done next) (hn : t.WellNamed) {p q : Nat}
    {x y : Plan} (hx : next.plans[p]? = some x) (hy : next.plans[q]? = some y) (hxe : IsEmpty t x)
    (hye : IsEmpty t y) (heq : x.identity = y.identity) : x.owner = y.owner := by
  rcases hxe.kind with ⟨hxi, hxs⟩ | ⟨f, fn, hxf, hfn, hxi, -⟩ <;>
    rcases hye.kind with ⟨hyi, hys⟩ | ⟨g, gn, hyg, hgn, hyi, -⟩ <;> rw [hxi, hyi] at heq
  · rw [(hs.owner p x hx hxe.origin).2.mpr hxs, (hs.owner q y hy hye.origin).2.mpr hys]
  · cases heq
  · cases heq
  · rw [EnvIdentity.staticGeneric.injEq] at heq
    rw [hxf, hyg, fn_name_inj hn hfn hgn heq]

/-- Identities tell plans apart: those of scopes by the key, the empty ones by their owner. -/
theorem Served.identity_inj (hs : Served t ps closures done next) (hn : t.WellNamed)
    (hplaced : Placed t captured next)
    (hempty : ∀ (p : Nat) x, next.plans[p]? = some x → x.origin = none → IsEmpty t x) {p q : Nat}
    {x y : Plan} (hx : next.plans[p]? = some x) (hy : next.plans[q]? = some y)
    (heq : x.identity = y.identity) : p = q := by
  cases hxo : x.origin with
  | some s =>
    obtain ⟨-, sc, hsc, hxi⟩ := hplaced.origin p x s hx hxo
    cases hyo : y.origin with
    | some s' =>
      obtain ⟨-, sc', hsc', hyi⟩ := hplaced.origin q y s' hy hyo
      rw [hxi, hyi, EnvIdentity.scope.injEq] at heq
      cases hn.key s s' sc sc' hsc hsc' heq
      exact hplaced.from_inj ⟨x, hx, hxo⟩ ⟨y, hy, hyo⟩
    | none => exact absurd (heq.symm.trans hxi) ((hempty q y hy hyo).identity_ne_scope _)
  | none =>
    have hxe := hempty p x hx hxo
    cases hyo : y.origin with
    | some s' =>
      obtain ⟨-, sc', -, hyi⟩ := hplaced.origin q y s' hy hyo
      exact absurd (heq.trans hyi) (hxe.identity_ne_scope _)
    | none =>
      exact hs.unique p q x y hx hy hxo hyo (hs.owner_eq hn hx hy hxe (hempty q y hy hyo) heq)

/-- With the empty plans behind them, the plans are sound. -/
theorem Settled.sound (h : Settled t ps) (hs : Served t ps closures done next)
    (hall : ∀ c : Nat, c < t.closures.size → ∃ b, next.bindings.find? c = some b) :
    next.Sound t := by
  have hlinking := hs.ext.linking h.linking
  have hempty (p : Nat) (x : Plan) (hx : next.plans[p]? = some x) (ho : x.origin = none) :
      IsEmpty t x := hs.ext.isEmpty h.origin hx ho
  have hnone (c : ClosureId) (hb : ps.bindings.find? c = none) : next.neededBy c = [] := by
    rw [hs.ext.neededBy]
    refine List.eq_nil_iff_forall_not_mem.mpr fun p hp => ?_
    obtain ⟨b, hb'⟩ := h.bound c p hp
    rw [hb] at hb'
    cases hb'
  refine ⟨hlinking, hs.ext.closed h.closed, hempty,
    fun hn p q x y hx hy heq => hs.identity_inj hn hlinking.placed hempty hx hy heq, hall, ?_, ?_, ?_⟩
  · intro c b hb
    rcases hs.added c b hb with hb | ⟨hno, p, x, hx, ho, rfl⟩
    · obtain ⟨d, rfl, hd⟩ := h.direct c b hb
      exact .inl ⟨d, rfl, hs.ext.isInnermost_iff.mpr (hs.ext.neededBy c ▸ hd)⟩
    · exact .inr ⟨hnone c hno, p, x, hx, ho, rfl⟩
  · rintro p q ⟨x, hx, hr⟩ hq
    have hq' := hs.ext.parent?_iff.mp hq
    rcases hs.ext.new p x hx with hx | ⟨-, he⟩
    · exact hs.ext.onHeap (h.heap_parent p q ⟨x, hx, hr⟩ hq')
    · unfold parent? at hq
      rw [hx, Option.bind_some, he.parent] at hq
      cases hq
  · intro c d hc hd
    rcases hs.added c _ hd with hd | ⟨-, p, x, -, -, hb⟩
    · exact hs.ext.onHeap (h.heap_escaping c d hc hd)
    · split at hb <;> cases hb

end Served

end PlanTable

/-- What planning goes through: candidates of single scopes, and those of them that are left when
some were merged; their plans, and the plans once they are linked; and the plans with the empty
ones. -/
structure Planning (t : ScopeTree) (a : Captures) (merge : MergePolicy) (single cs : Candidates)
    (start linked ps : PlanTable) : Prop where
  ofCaptures : Candidates.ofCaptures t a = .ok single
  single_sound : Candidates.Sound t t.Captured single
  /-- Nothing is merged at first. -/
  single_merged : ∀ s c, SortedMap.find? s single = some c → c.merged = []
  never : merge = .never → cs = single
  contained : merge = .contained → single.mergeContained t a = .ok cs
  sound : Candidates.Sound t t.Captured cs
  made : PlanTable.Made t cs start
  aligned : PlanTable.Aligned start linked
  bound : PlanTable.Bound t t.Captured linked
  /-- The empty plans are those of the functions whose closures have no other. -/
  served : ∃ closures done,
    PlanTable.Served t (linked.assignRepresentations t) closures done ps ∧
    (∀ c : Nat, c < t.closures.size → ∃ b, ps.bindings.find? c = some b) ∧
    ∀ f, some f ∈ done ↔ ∃ c k, t.closures[c]? = some k ∧ linked.bindings.find? c = none ∧
      PlanTable.genericOwner? t k = some f

namespace Planning

variable {t : ScopeTree} {holds : VarId → ClosureId → Prop} {a : Captures} {merge : MergePolicy}
  {single cs : Candidates} {start linked ps : PlanTable}

/-- Once they are linked, plans are settled. -/
theorem settled (h : t.WellBound holds) (hmade : PlanTable.Made t cs start)
    (haligned : PlanTable.Aligned start linked) (hbound : PlanTable.Bound t t.Captured linked) :
    PlanTable.Settled t (linked.assignRepresentations t) := by
  refine hbound.settled h fun p x hx => ?_
  obtain ⟨y, hy, hplace⟩ := haligned.exists_plan hx
  rw [hmade.plan] at hy
  obtain ⟨e, -, rfl⟩ := Option.map_eq_some_iff.mp hy
  have ho : (PlanTable.ofCandidate t p e).origin = x.origin := (congrArg Plan.origin hplace :)
  rw [← ho]
  simp [PlanTable.ofCandidate]

/-- The plans at the end are sound. -/
theorem plans_sound (hp : Planning t a merge single cs start linked ps) (h : t.WellBound holds) :
    ps.Sound t := by
  obtain ⟨closures, done, hserved, hall, -⟩ := hp.served
  exact (settled h hp.made hp.aligned hp.bound).sound hserved hall

end Planning

/-- Planning the environments of a sound tree goes through all steps. -/
theorem exists_planning {t : ScopeTree} {holds : VarId → ClosureId → Prop} (h : t.WellBound holds)
    {a : Captures} (ha : a.Sound t) (options : LowerOptions) :
    ∃ ps, planEnvironments t a options = .ok ps ∧
      ∃ single cs start linked, Planning t a options.merge single cs start linked ps := by
  have hcap : (fun v => v ∈ a.captured) = t.Captured := by
    funext v
    exact propext (ha.captured v)
  obtain ⟨single, hsingle, hsingleSound, hmerged⟩ := Candidates.ofCaptures_spec h ha
  rw [hcap] at hsingleSound
  obtain ⟨cs, hcs, hsound, hnever⟩ : ∃ cs, (options.merge = .contained →
      single.mergeContained t a = .ok cs) ∧ Candidates.Sound t t.Captured cs ∧
      (options.merge = .never → cs = single) := by
    cases options.merge with
    | never => exact ⟨single, nofun, hsingleSound, fun _ => rfl⟩
    | contained =>
      obtain ⟨cs, hcs, hsound⟩ := Candidates.mergeContained_spec (a := a) h hsingleSound
      exact ⟨cs, fun _ => hcs, hsound, nofun⟩
  obtain ⟨start, hstart, hmade⟩ := PlanTable.made_of_sound h.preorder hsound
  obtain ⟨mid, hmid, hlinking, hmidBindings, hmidAligned⟩ :=
    PlanTable.addNeeds_spec h ha hsound hmade
  obtain ⟨linked, hlinked, hbound, haligned⟩ := hlinking.linkParents_spec h hmidBindings
  have hsettled := Planning.settled h hmade (hmidAligned.trans haligned) hbound
  obtain ⟨ps, closures, done, hps, hserved, hall, hdone⟩ :=
    PlanTable.bindStateless_spec h hsettled.origin
  have hp : Planning t a options.merge single cs start linked ps :=
    ⟨hsingle, hsingleSound, hmerged, hnever, hcs, hsound, hmade, hmidAligned.trans haligned, hbound,
      closures, done, hserved, hall, hdone⟩
  have hcandidates : PlanTable.candidates t a options.merge = .ok cs := by
    unfold PlanTable.candidates
    rw [hsingle, Lower.ok_bind]
    cases hm : options.merge with
    | never => exact congrArg Except.ok (hnever hm).symm
    | contained => exact hcs hm
  have hunlinked : PlanTable.unlinked t a options.merge = .ok mid := by
    rw [PlanTable.unlinked, hcandidates, Lower.ok_bind, hstart, Lower.ok_bind, hmid]
  have hforest := (hp.plans_sound h).linking.checkForest_ok h.preorder
  exact ⟨ps, PlanTable.planEnvironments_eq_ok.mpr ⟨mid, linked, hunlinked, hlinked, hps, hforest⟩,
    single, cs, start, linked, hp⟩

/-- Planning the environments of a sound tree succeeds. Unless environments are merged, a captured
variable is in the environment of its own scope. -/
theorem planEnvironments_spec {t : ScopeTree} {holds : VarId → ClosureId → Prop}
    (h : t.WellBound holds) {a : Captures} (ha : a.Sound t) (options : LowerOptions) :
    ∃ ps, planEnvironments t a options = .ok ps ∧ ps.Sound t ∧
      (options.merge = .never → ∀ v p x, ps.varPlan.find? v = some p → t.vars[v]? = some x →
        ps.From p x.scope) := by
  obtain ⟨ps, hps, single, cs, start, linked, hp⟩ := exists_planning h ha options
  refine ⟨ps, hps, hp.plans_sound h, fun hm v p x hv hx => ?_⟩
  obtain ⟨closures, done, hserved, -⟩ := hp.served
  have hlike := hp.aligned.toAlike.trans (PlanTable.alike_assignRepresentations t linked)
  rw [hserved.ext.varPlan, hlike.varPlan] at hv
  obtain ⟨e, he, hve⟩ := (hp.made.var_plan v p).mp hv
  have hfe := hp.sound.sorted.mem_iff.mp (List.mem_of_getElem? he)
  obtain ⟨-, y, hy, hys⟩ := hp.sound.slot e.1 e.2 v hfe hve
  cases hx.symm.trans hy
  rw [hp.never hm] at hfe
  rw [hp.single_merged e.1 e.2 hfe, List.mem_singleton] at hys
  rw [hserved.ext.from_iff, hlike.from_iff, hys]
  exact ⟨_, by rw [hp.made.plan, he]; rfl, rfl⟩

end ClosureEnv
