import ClosureEnv.Plan.Planning
import ClosureEnv.Proofs.Plan.Candidates

/-!
# Plans of candidates

Each candidate becomes a plan, in the order of the scopes. `Placed` gathers what linking and the
choice of representations leave alone: where the plans come from and which variables they hold.
-/

namespace ClosureEnv

namespace PlanTable

/-- A plan comes from a scope. -/
def From (ps : PlanTable) (p : PlanId) (s : ScopeId) : Prop :=
  ∃ x, ps.plans[p]? = some x ∧ x.origin = some s

/-- From scope `s` down to `x` there are only blocks, and no plan comes from one of them. -/
def Clear (t : ScopeTree) (ps : PlanTable) (s x : ScopeId) : Prop :=
  AroundEq t.scopes s x ∧ ∀ y, Around t.scopes s y → AroundEq t.scopes y x →
    (∃ sc, t.scopes[y]? = some sc ∧ sc.kind = .block) ∧ ∀ q, ¬ ps.From q y

/-- The environments of scopes, for some captured variables. -/
structure Placed (t : ScopeTree) (captured : VarId → Prop) (ps : PlanTable) : Prop where
  /-- Plans are numbered by position. -/
  plan_id : ∀ (p : Nat) x, ps.plans[p]? = some x → x.id = p
  /-- A plan that comes from a scope stands for that scope. -/
  origin : ∀ (p : Nat) x s, ps.plans[p]? = some x → x.origin = some s → x.isSingleton = false ∧
    ∃ sc, t.scopes[s]? = some sc ∧ x.identity = .scope sc.key
  /-- Plans are in the order of the scopes that they come from. -/
  order : ∀ (p q : Nat) s s', ps.From p s → ps.From q s' → p < q → s < s'
  /-- A scope is known to have a plan if one comes from it. -/
  scope_known : ∀ p s, ps.From p s → ps.scopePlan.find? s = some p
  /-- The plan that a scope is known to have comes from it or around it. -/
  scope_plan : ∀ s p, ps.scopePlan.find? s = some p → ∃ o, ps.From p o ∧ Clear t ps o s
  /-- A slot is for a captured variable, which is known to have it. -/
  slot : ∀ (p : Nat) x v, ps.plans[p]? = some x → v ∈ x.slots → captured v ∧
    ps.varPlan.find? v = some p ∧ ∃ y o, t.vars[v]? = some y ∧ x.origin = some o ∧
      Clear t ps o y.scope
  /-- The plan that a variable is known to have holds it. -/
  var_plan : ∀ v p, ps.varPlan.find? v = some p → ∃ x, ps.plans[p]? = some x ∧ v ∈ x.slots
  /-- Captured variables have plans. -/
  covered : ∀ v, captured v → ∃ p, ps.varPlan.find? v = some p
  /-- Slots are in order. -/
  slots : ∀ (p : Nat) x, ps.plans[p]? = some x → x.slots.Pairwise (· < ·)
  /-- A scope that a plan comes from has a variable. -/
  own : ∀ p s, ps.From p s → ∃ (v : Nat) (x : Variable), t.vars[v]? = some x ∧ x.scope = s
  /-- A slot is for a variable of a scope of the plan. -/
  declared : ∀ (p : Nat) x v y, ps.plans[p]? = some x → v ∈ x.slots → t.vars[v]? = some y →
    ∃ o, x.origin = some o ∧ y.scope ∈ o :: x.merged

/-- The plan of a candidate. -/
def ofCandidate (t : ScopeTree) (id : PlanId) (e : ScopeId × Candidate) : Plan :=
  let s := t.scopes[e.1]?.getD default
  ⟨id, .scope s.key, some e.1, e.2.merged, some s.owner, e.2.repr, e.2.slots, none, false⟩

/-- The plans of the candidates in `done`. -/
structure Made (t : ScopeTree) (done : Candidates) (ps : PlanTable) : Prop where
  /-- There is one plan for each candidate. -/
  size : ps.plans.size = done.length
  /-- Plans are as the candidates say. -/
  plan : ∀ p : Nat, ps.plans[p]? = done[p]?.map (ofCandidate t p)
  /-- The scopes of the candidates are known to have the plans. -/
  scope_plan : ∀ s (p : Nat), ps.scopePlan.find? s = some p ↔
    ∃ e, done[p]? = some e ∧ s ∈ e.1 :: e.2.merged
  /-- The captured variables of the candidates are known to have the plans. -/
  var_plan : ∀ v (p : Nat), ps.varPlan.find? v = some p ↔ ∃ e, done[p]? = some e ∧ v ∈ e.2.slots
  /-- Nothing is bound yet. -/
  bindings : ps.bindings = []
  /-- Nothing is needed yet. -/
  needed : ps.needed = []

end PlanTable

variable {t : ScopeTree} {holds : VarId → ClosureId → Prop}

/-- No scope belongs to two candidates. -/
theorem Candidates.Sound.disjoint (hp : Preorder t.scopes) {captured : VarId → Prop}
    {cs : Candidates} (h : Sound t captured cs) {s s' x : Nat} {c c' : Candidate}
    (hs : SortedMap.find? s cs = some c) (hs' : SortedMap.find? s' cs = some c')
    (hx : x ∈ s :: c.merged) (hx' : x ∈ s' :: c'.merged) : s = s' := by
  obtain ⟨-, hsx, hclear⟩ := h.clear s c x hs hx
  obtain ⟨-, hsx', hclear'⟩ := h.clear s' c' x hs' hx'
  rcases AroundEq.total hp hsx hsx' with (heq | ha) | ha
  · exact heq
  · rw [(hclear s' ha hsx').2] at hs'
    cases hs'
  · rw [(hclear' s ha hsx).2] at hs
    cases hs

namespace PlanTable

/-- One more candidate becomes one more plan. -/
theorem Made.add {done : Candidates} {ps : PlanTable} (h : Made t done ps)
    {e : ScopeId × Candidate} (he : e.1 < t.scopes.size)
    (hscopes : ∀ e' ∈ done, ∀ x, x ∈ e.1 :: e.2.merged → x ∉ e'.1 :: e'.2.merged)
    (hslots : ∀ e' ∈ done, ∀ v ∈ e.2.slots, v ∉ e'.2.slots) :
    ∃ ps', addCandidate t ps e = .ok ps' ∧ Made t (done ++ [e]) ps' := by
  have hx : t.scopes[e.1]? = some t.scopes[e.1] := Array.getElem?_eq_getElem he
  have hnew (p : Nat) : (done ++ [e])[p]? =
      if p = done.length then some e else done[p]? := by
    rw [List.getElem?_append]
    split
    · next hlt => rw [if_neg (by omega)]
    · next hge =>
      split
      · next heq => simp [heq]
      · next hne => rw [List.getElem?_eq_none (by simp; omega), List.getElem?_eq_none (by omega)]
  -- what is known of a number in one of the lists of the candidates
  have hfind (part : ScopeId × Candidate → List Nat) (m : SortedMap Nat Nat)
      (hm : ∀ s (p : Nat), m.find? s = some p ↔ ∃ e, done[p]? = some e ∧ s ∈ part e)
      (hdisj : ∀ e' ∈ done, ∀ x, x ∈ part e → x ∉ part e') (s p : Nat) :
      ((part e).foldl (fun m x => m.insert x ps.plans.size) m).find? s = some p ↔
        ∃ e', (done ++ [e])[p]? = some e' ∧ s ∈ part e' := by
    rw [SortedMap.find?_foldl_insert_const, h.size, hnew]
    by_cases hs : s ∈ part e
    · rw [if_pos hs, Option.some.injEq]
      constructor
      · rintro rfl
        exact ⟨e, by simp, hs⟩
      · rintro ⟨e', he', hs'⟩
        by_contra hne
        rw [if_neg (Ne.symm hne)] at he'
        exact hdisj e' (List.mem_of_getElem? he') s hs hs'
    · rw [if_neg hs, hm]
      by_cases hp : p = done.length
      · subst hp
        simp [hs]
      · rw [if_neg hp]
  refine ⟨_, Lower.bind_eq_ok.mpr ⟨_, ScopeTree.scope_eq_ok.mpr hx, rfl⟩,
    ⟨?_, fun p => ?_, fun s p => ?_, fun v p => ?_, h.bindings, h.needed⟩⟩
  · simp [h.size]
  · rw [hnew]
    dsimp only
    rw [Array.getElem?_push, h.size, h.plan]
    split
    · next heq => simp [ofCandidate, heq, hx]
    · rfl
  · exact hfind (fun e => e.1 :: e.2.merged) _ h.scope_plan hscopes s p
  · exact hfind (fun e => e.2.slots) _ h.var_plan hslots v p

/-- Sound candidates become plans. -/
theorem made_of_sound (hp : Preorder t.scopes) {captured : VarId → Prop} {cs : Candidates}
    (h : Candidates.Sound t captured cs) :
    ∃ ps, cs.foldlM (addCandidate t) PlanTable.empty = .ok ps ∧ Made t cs ps := by
  refine Lower.foldlM_ok (Made t) ⟨rfl, fun p => rfl, fun s p => ?_, fun v p => ?_, rfl, rfl⟩ ?_
  · exact ⟨fun hf => (by cases hf), fun ⟨e, he, _⟩ => (by cases he)⟩
  · exact ⟨fun hf => (by cases hf), fun ⟨e, he, _⟩ => (by cases he)⟩
  intro done e left ps hcs hmade
  have he : e ∈ cs := hcs ▸ List.mem_append_right _ List.mem_cons_self
  have hfe := h.sorted.mem_iff.mp he
  -- candidates that came before are of other scopes
  have hne (e' : ScopeId × Candidate) (he' : e' ∈ done) :
      e'.1 ≠ e.1 ∧ SortedMap.find? e'.1 cs = some e'.2 := by
    refine ⟨fun heq => ?_, h.sorted.mem_iff.mp (hcs ▸ List.mem_append_left _ he')⟩
    have hn := h.sorted.nodup_keys
    rw [hcs, List.map_append, List.map_cons] at hn
    exact (List.nodup_append.mp hn).2.2 _ (List.mem_map_of_mem he') _ List.mem_cons_self heq
  refine hmade.add (h.clear e.1 e.2 e.1 hfe List.mem_cons_self).1 ?_ ?_
  · intro e' he' x hx hx'
    exact (hne e' he').1 (h.disjoint hp (hne e' he').2 hfe hx' hx)
  · intro e' he' v hv hv'
    obtain ⟨-, y, hy, hys⟩ := h.slot e.1 e.2 v hfe hv
    obtain ⟨-, z, hz, hzs⟩ := h.slot e'.1 e'.2 v (hne e' he').2 hv'
    cases hy.symm.trans hz
    exact (hne e' he').1 (h.disjoint hp (hne e' he').2 hfe hzs hys)

/-- A plan comes from the scope of its candidate. -/
theorem Made.from_iff {cs : Candidates} {ps : PlanTable} (h : Made t cs ps) {p : PlanId}
    {s : ScopeId} : ps.From p s ↔ ∃ c, cs[p]? = some (s, c) := by
  constructor
  · rintro ⟨x, hx, ho⟩
    rw [h.plan] at hx
    obtain ⟨⟨s', c⟩, he, rfl⟩ := Option.map_eq_some_iff.mp hx
    cases ho
    exact ⟨c, he⟩
  · rintro ⟨c, hc⟩
    exact ⟨ofCandidate t p (s, c), by rw [h.plan, hc]; rfl, rfl⟩

/-- A plan is that of a candidate. -/
theorem Made.exists_candidate {cs : Candidates} {ps : PlanTable} (h : Made t cs ps) {p : Nat}
    {x : Plan} (hx : ps.plans[p]? = some x) : ∃ e, cs[p]? = some e ∧ x = ofCandidate t p e := by
  rw [h.plan] at hx
  obtain ⟨e, he, hxe⟩ := Option.map_eq_some_iff.mp hx
  exact ⟨e, he, hxe.symm⟩

section placed

variable {captured : VarId → Prop} {cs : Candidates} {ps : PlanTable} {p : Nat}
  {e : ScopeId × Candidate} (hcs : Candidates.Sound t captured cs)
include hcs

/-- A candidate in some position is that of its scope. -/
theorem find?_of_getElem? (he : cs[p]? = some e) : SortedMap.find? e.1 cs = some e.2 :=
  hcs.sorted.mem_iff.mp (List.mem_of_getElem? he)

/-- The way to a scope that was merged into a candidate is clear of plans, as it is clear of
candidates. -/
theorem Made.clear (h : Made t cs ps) (he : cs[p]? = some e) {x : Nat}
    (hx : x ∈ e.1 :: e.2.merged) : Clear t ps e.1 x := by
  obtain ⟨-, ha, hbelow⟩ := hcs.clear e.1 e.2 x (find?_of_getElem? hcs he) hx
  refine ⟨ha, fun y hy hyx => ⟨(hbelow y hy hyx).1, fun q hq => ?_⟩⟩
  obtain ⟨c, hc⟩ := h.from_iff.mp hq
  have hnone := (hbelow y hy hyx).2
  rw [find?_of_getElem? hcs hc] at hnone
  cases hnone

/-- The plans of sound candidates are well placed. -/
theorem Made.placed (h : Made t cs ps) : Placed t captured ps where
  plan_id p x hx := by
    obtain ⟨e, -, rfl⟩ := h.exists_candidate hx
    rfl
  origin p x s hx ho := by
    obtain ⟨e, he, rfl⟩ := h.exists_candidate hx
    cases ho
    have hsize := (hcs.clear e.1 e.2 e.1 (find?_of_getElem? hcs he) List.mem_cons_self).1
    refine ⟨rfl, t.scopes[e.1], Array.getElem?_eq_getElem hsize, ?_⟩
    simp [ofCandidate, Array.getElem?_eq_getElem hsize]
  order p q s s' hs hs' hlt := by
    obtain ⟨c, hc⟩ := h.from_iff.mp hs
    obtain ⟨c', hc'⟩ := h.from_iff.mp hs'
    obtain ⟨hp, hpe⟩ := List.getElem?_eq_some_iff.mp hc
    obtain ⟨hq, hqe⟩ := List.getElem?_eq_some_iff.mp hc'
    have hless := List.pairwise_iff_getElem.mp hcs.sorted p q hp hq hlt
    rw [hpe, hqe] at hless
    exact Nat.compare_eq_lt.mp hless
  scope_known p s hs := by
    obtain ⟨c, hc⟩ := h.from_iff.mp hs
    exact (h.scope_plan s p).mpr ⟨_, hc, List.mem_cons_self⟩
  scope_plan s p hs := by
    obtain ⟨e, he, hse⟩ := (h.scope_plan s p).mp hs
    exact ⟨e.1, h.from_iff.mpr ⟨e.2, he⟩, h.clear hcs he hse⟩
  slot p x v hx hv := by
    obtain ⟨e, he, rfl⟩ := h.exists_candidate hx
    obtain ⟨hc, y, hy, hys⟩ := hcs.slot e.1 e.2 v (find?_of_getElem? hcs he) hv
    exact ⟨hc, (h.var_plan v p).mpr ⟨e, he, hv⟩, y, e.1, hy, rfl, h.clear hcs he hys⟩
  var_plan v p hv := by
    obtain ⟨e, he, hve⟩ := (h.var_plan v p).mp hv
    exact ⟨ofCandidate t p e, by rw [h.plan, he]; rfl, hve⟩
  covered v hv := by
    obtain ⟨s, c, hf, hvc⟩ := hcs.covered v hv
    obtain ⟨p, hp⟩ := List.mem_iff_getElem?.mp (hcs.sorted.mem_iff.mpr hf)
    exact ⟨p, (h.var_plan v p).mpr ⟨_, hp, hvc⟩⟩
  slots p x hx := by
    obtain ⟨e, he, rfl⟩ := h.exists_candidate hx
    exact hcs.slots e.1 e.2 (find?_of_getElem? hcs he)
  own p s hs := by
    obtain ⟨c, hc⟩ := h.from_iff.mp hs
    obtain ⟨v, -, x, hx, hxs⟩ := hcs.own s c (find?_of_getElem? hcs hc)
    exact ⟨v, x, hx, hxs⟩
  declared p x v y hx hv hy := by
    obtain ⟨e, he, rfl⟩ := h.exists_candidate hx
    obtain ⟨-, y', hy', hys⟩ := hcs.slot e.1 e.2 v (find?_of_getElem? hcs he) hv
    cases hy.symm.trans hy'
    exact ⟨e.1, rfl, hys⟩

end placed

end PlanTable

end ClosureEnv
