import ClosureEnv.Proofs.Loops.Upward
import ClosureEnv.Proofs.Plan.Passes
import Mathlib.Data.Finset.Card

/-!
# Tables of valid trees

A valid tree need not come from a module: closures may have any numbers, and may be at other places
than a module would have them. What is left to rely on is that scopes follow their parents. So the
plan that a scope has comes from a scope that does not follow it, and the next plan around another
comes from a scope further up (`PlanTable.Grounded`), which is all that is needed for linking and
marking to end.
-/

namespace ClosureEnv

variable {t : ScopeTree} {a : Captures}

namespace Candidates

/-- Candidates are of scopes that exist, and those that were merged into one follow it. -/
def Ordered (t : ScopeTree) (cs : Candidates) : Prop :=
  ∀ e ∈ cs, e.1 < t.scopes.size ∧ ∀ m ∈ e.2.merged, e.1 < m

namespace Ordered

variable {cs : Candidates} (h : cs.Ordered t)
include h

/-- A candidate that is found is in order. -/
theorem of_find? {s : ScopeId} {c : Candidate} (hc : SortedMap.find? s cs = some c) :
    s < t.scopes.size ∧ ∀ m ∈ c.merged, s < m :=
  h (s, c) (SortedMap.mem_of_find? hc)

/-- One more candidate. -/
theorem insert {s : ScopeId} {c : Candidate} (hs : s < t.scopes.size) (hc : ∀ m ∈ c.merged, s < m) :
    Ordered t (SortedMap.insert s c cs) := by
  intro e he
  rcases SortedMap.mem_insert_imp he with rfl | he
  · exact ⟨hs, hc⟩
  · exact h e he

/-- One candidate less. -/
theorem erase (s : ScopeId) : Ordered t (SortedMap.erase s cs) :=
  fun e he => h e (List.mem_filter.mp he).1

end Ordered

/-- The candidates of single scopes are in order. -/
theorem ofCaptures_ordered {cs : Candidates}
    (hvars : ∀ (v : Nat) x, t.vars[v]? = some x → x.scope < t.scopes.size)
    (hcs : ofCaptures t a = .ok cs) : cs.Ordered t := by
  refine Lower.foldlM_inv (Ordered t) hcs (fun e he => absurd he List.not_mem_nil) ?_
  intro v _ cs cs' h hrun
  obtain ⟨x, hx, hrun⟩ := Lower.bind_eq_ok.mp hrun
  cases hrun
  refine h.insert (hvars v x (ScopeTree.var_eq_ok.mp hx)) fun m hm => ?_
  cases hf : SortedMap.find? x.scope cs with
  | none =>
    rw [hf] at hm
    exact absurd hm List.not_mem_nil
  | some c =>
    rw [hf] at hm
    exact (h.of_find? hf).2 m hm

/-- The candidate that is found from a scope upwards is of a scope that does not follow it. -/
theorem targetFrom_le (hp : Preorder t.scopes) {cs : Candidates} {bound : Nat} {p o : ScopeId}
    (h : targetFrom t cs bound (some p) = .ok (some o)) : o ≤ p := by
  induction bound generalizing p with
  | zero => cases h
  | succ bound ih =>
    rw [targetFrom] at h
    split at h
    · cases h
      exact Nat.le_refl _
    · obtain ⟨x, hx, h⟩ := Lower.bind_eq_ok.mp h
      split at h
      · cases hpar : x.parent with
        | none =>
          rw [hpar] at h
          cases bound <;> cases h
        | some q =>
          rw [hpar] at h
          have hlt := hp p q ((parentIn?_of_scope (ScopeTree.scope_eq_ok.mp hx)).trans hpar)
          exact Nat.le_trans (ih h) (Nat.le_of_lt hlt)
      · cases h

/-- A candidate goes into one of a scope before it, so candidates stay in order. -/
theorem mergeOne_ordered (hp : Preorder t.scopes) {cs cs' : Candidates} {s : ScopeId}
    (h : cs.Ordered t) (hrun : mergeOne t a cs s = .ok cs') : cs'.Ordered t := by
  unfold mergeOne at hrun
  obtain ⟨x, hx, hrun⟩ := Lower.bind_eq_ok.mp hrun
  obtain ⟨target, htarget, hrun⟩ := Lower.bind_eq_ok.mp hrun
  cases target with
  | none =>
    cases hrun
    exact h
  | some o =>
    -- A target lies around the scope, and scopes around have smaller numbers.
    have hos : o < s := by
      unfold target? at htarget
      split at htarget
      · cases hpar : x.parent with
        | none =>
          rw [hpar] at htarget
          cases htarget
        | some p =>
          rw [hpar] at htarget
          have hlt := hp s p ((parentIn?_of_scope (ScopeTree.scope_eq_ok.mp hx)).trans hpar)
          exact Nat.lt_of_le_of_lt (targetFrom_le hp htarget) hlt
      · cases htarget
    dsimp only at hrun
    split at hrun
    · next inner outer hinner houter =>
      split at hrun
      · cases hrun
        split
        · refine (h.erase s).insert (h.of_find? houter).1 fun m hm => ?_
          -- what goes along follows the scope that it was merged into before
          have hm' : m ∈ outer.merged ∨ m = s ∨ m ∈ inner.merged := by
            simpa [absorb] using hm
          rcases hm' with hm | rfl | hm
          · exact (h.of_find? houter).2 m hm
          · exact hos
          · exact Nat.lt_trans hos ((h.of_find? hinner).2 m hm)
        · exact h.erase s
      · cases hrun
        exact h
    · cases hrun
      exact h

end Candidates

namespace PlanTable

/-- The candidates that become plans are in order. -/
theorem candidates_ordered (h : t.validate = .ok ()) {merge : MergePolicy} {cs : Candidates}
    (hcs : candidates t a merge = .ok cs) : cs.Ordered t := by
  obtain ⟨hp, hvars⟩ := ScopeTree.of_validate h
  obtain ⟨single, hsingle, hcs⟩ := Lower.bind_eq_ok.mp hcs
  have hordered := Candidates.ofCaptures_ordered hvars hsingle
  cases merge with
  | never =>
    cases hcs
    exact hordered
  | contained =>
    obtain ⟨ss, -, hcs⟩ := Lower.bind_eq_ok.mp hcs
    exact Lower.foldlM_inv (Candidates.Ordered t) hcs hordered fun s _ cs cs' h hrun =>
      Candidates.mergeOne_ordered hp h hrun

end PlanTable

/-- The closures that a tree knows of, by their numbers. -/
def ScopeTree.closureIds (t : ScopeTree) : Finset ClosureId :=
  (t.closures.toList.map Closure.id ++ t.scopes.toList.filterMap Scope.closure).toFinset

/-- The closures on the way from a scope upwards are known to the tree. -/
theorem ScopeTree.closuresFrom_subset {inner outer : ScopeId} {bound : Nat} {cur : ScopeId}
    {done cs : List ClosureId} (h : t.closuresFrom inner outer done bound cur = .ok cs)
    (hdone : ∀ c ∈ done, c ∈ t.closureIds) : ∀ c ∈ cs, c ∈ t.closureIds := by
  induction bound generalizing cur done with
  | zero => cases h
  | succ bound ih =>
    rw [closuresFrom] at h
    split at h
    · cases h
      exact hdone
    · obtain ⟨x, hx, h⟩ := Lower.bind_eq_ok.mp h
      dsimp only at h
      split at h
      · refine ih h ?_
        cases hc : x.closure with
        | none => exact hdone
        | some c =>
          intro c' hc'
          rcases List.mem_append.mp hc' with hc' | hc'
          · exact hdone c' hc'
          · obtain rfl := List.mem_singleton.mp hc'
            have hmem := Array.mem_toList_iff.mpr (Array.mem_of_getElem? (scope_eq_ok.mp hx))
            exact List.mem_toFinset.mpr
              (List.mem_append_right _ (List.mem_filterMap.mpr ⟨x, hmem, hc⟩))
      · cases h

namespace PlanTable

variable {ps : PlanTable}

/-- What holds of the plans of a valid tree, whatever closures need. -/
structure Grounded (t : ScopeTree) (ps : PlanTable) : Prop where
  /-- Plans are numbered by position, and come from scopes that exist. -/
  plan : ∀ (p : Nat) x, ps.plans[p]? = some x → x.id = p ∧
    ∃ o, x.origin = some o ∧ o < t.scopes.size
  /-- The plan that a scope is known to have comes from a scope that does not follow it. -/
  scope : ∀ s p, ps.scopePlan.find? s = some p → ∃ o, ps.From p o ∧ o ≤ s
  /-- A parent is the next plan around. -/
  parent : ∀ p q, ps.parent? p = some q → ps.nearestEnclosing t p = .ok (some q)
  /-- Closures that the tree knows of need plans that are there. -/
  needed : ∀ c p, p ∈ ps.neededBy c → p < ps.plans.size ∧ c ∈ t.closureIds

/-- The plan that is found from a scope upwards is that of a scope that does not follow it. -/
theorem enclosingFrom_le (hp : Preorder t.scopes) {p : PlanId} {bound : Nat} {z : ScopeId}
    {q : PlanId} (h : ps.enclosingFrom t p bound (some z) = .ok (some q)) :
    ∃ y ≤ z, ps.scopePlan.find? y = some q := by
  induction bound generalizing z with
  | zero => cases h
  | succ bound ih =>
    -- The search goes on with the scope around.
    have hup (hnext : (do ps.enclosingFrom t p bound (← t.scope z).parent) = .ok (some q)) :
        ∃ y ≤ z, ps.scopePlan.find? y = some q := by
      obtain ⟨x, hx, hnext⟩ := Lower.bind_eq_ok.mp hnext
      cases hpar : x.parent with
      | none =>
        rw [hpar] at hnext
        cases bound <;> cases hnext
      | some w =>
        rw [hpar] at hnext
        obtain ⟨y, hy, hq⟩ := ih hnext
        have hlt := hp z w ((parentIn?_of_scope (ScopeTree.scope_eq_ok.mp hx)).trans hpar)
        exact ⟨y, Nat.le_trans hy (Nat.le_of_lt hlt), hq⟩
    rw [enclosingFrom] at h
    split at h
    · next q' hq' =>
      split at h
      · cases h
        exact ⟨z, Nat.le_refl z, hq'⟩
      · exact hup h
    · exact hup h

/-- The next plan around another comes from a scope before that of the other. -/
theorem Grounded.nearest_lt (hg : ps.Grounded t) (hp : Preorder t.scopes) {p q : PlanId}
    (h : ps.nearestEnclosing t p = .ok (some q)) : ∃ s o, ps.From p s ∧ ps.From q o ∧ o < s := by
  obtain ⟨x, hx, h⟩ := Lower.bind_eq_ok.mp h
  have hx' := plan_eq_ok.mp hx
  obtain ⟨-, s, hs, -⟩ := hg.plan p x hx'
  rw [hs] at h
  obtain ⟨sc, hsc, h⟩ := Lower.bind_eq_ok.mp h
  cases hpar : sc.parent with
  | none =>
    rw [hpar] at h
    cases h
  | some z =>
    rw [hpar] at h
    obtain ⟨y, hy, hq⟩ := enclosingFrom_le hp h
    obtain ⟨o, ho, hoy⟩ := hg.scope y q hq
    have hlt := hp s z ((parentIn?_of_scope (ScopeTree.scope_eq_ok.mp hsc)).trans hpar)
    exact ⟨s, o, ⟨x, hx', hs⟩, ho, Nat.lt_of_le_of_lt (Nat.le_trans hoy hy) hlt⟩

/-- The next plan around another exists. -/
theorem Grounded.nearest_lt_size (hg : ps.Grounded t) (hp : Preorder t.scopes) {p q : PlanId}
    (h : ps.nearestEnclosing t p = .ok (some q)) : q < ps.plans.size := by
  obtain ⟨s, o, -, ho, -⟩ := hg.nearest_lt hp h
  exact ho.lt_size

/-- Tables with the same places have the same next plans. -/
theorem Alike.nearestEnclosing_eq {ps' : PlanTable} (ha : Alike ps ps') (p : PlanId) :
    ps'.nearestEnclosing t p = ps.nearestEnclosing t p := by
  have hup (bound : Nat) (cur : Option ScopeId) :
      ps'.enclosingFrom t p bound cur = ps.enclosingFrom t p bound cur := by
    induction bound generalizing cur with
    | zero => cases cur <;> rfl
    | succ bound ih =>
      cases cur with
      | none => rfl
      | some s => simp only [enclosingFrom, ha.scopePlan, ih]
  cases hx : ps.plans[p]? with
  | none =>
    have hx' : ps'.plans[p]? = none := by
      rw [Array.getElem?_eq_none_iff, ha.size]
      exact Array.getElem?_eq_none_iff.mp hx
    simp only [nearestEnclosing, plan, hx, hx']
    rfl
  | some x =>
    obtain ⟨x', hx', hplace⟩ := ha.symm.exists_plan hx
    have horigin : x'.origin = x.origin := (congrArg Plan.origin hplace :)
    rw [nearestEnclosing, nearestEnclosing, plan_eq_ok.mpr hx, plan_eq_ok.mpr hx', Lower.ok_bind,
      Lower.ok_bind, horigin]
    simp only [hup]

/-- Rounds only change parents and needs, so they keep the rest. -/
theorem Grounded.of_alike {ps' : PlanTable} (hg : ps.Grounded t) (ha : Alike ps ps')
    (hparent : ∀ p q, ps'.parent? p = some q → ps.nearestEnclosing t p = .ok (some q))
    (hneeded : ∀ c p, p ∈ ps'.neededBy c → p < ps.plans.size ∧ c ∈ t.closureIds) :
    ps'.Grounded t where
  plan p x' hx' := by
    obtain ⟨x, hx, hplace⟩ := ha.exists_plan hx'
    obtain ⟨hid, o, ho, hlt⟩ := hg.plan p x hx
    exact ⟨(congrArg Plan.id hplace :).symm.trans hid, o,
      (congrArg Plan.origin hplace :).symm.trans ho, hlt⟩
  scope s p hs := by
    rw [ha.scopePlan] at hs
    obtain ⟨o, ho, hle⟩ := hg.scope s p hs
    exact ⟨o, ha.from_iff.mpr ho, hle⟩
  parent p q hpq := (ha.nearestEnclosing_eq p).trans (hparent p q hpq)
  needed c p hp := by
    rw [ha.size]
    exact hneeded c p hp

/-! ## The table that is handed to linking -/

/-- Plans of candidates in order, before anything is needed. -/
structure Laid (t : ScopeTree) (ps : PlanTable) : Prop where
  plan : ∀ (p : Nat) x, ps.plans[p]? = some x → x.id = p ∧ x.parent = none ∧
    ∃ o, x.origin = some o ∧ o < t.scopes.size
  scope : ∀ s p, ps.scopePlan.find? s = some p → ∃ o, ps.From p o ∧ o ≤ s
  var : ∀ v p, ps.varPlan.find? v = some p → p < ps.plans.size
  bindings : ps.bindings = []
  needed : ps.needed = []

/-- One more plan of a candidate. -/
theorem Laid.addCandidate {ps' : PlanTable} (h : ps.Laid t) {e : ScopeId × Candidate}
    (he : e.1 < t.scopes.size ∧ ∀ m ∈ e.2.merged, e.1 < m) (hrun : addCandidate t ps e = .ok ps') :
    ps'.Laid t := by
  obtain ⟨s, -, hrun⟩ := Lower.bind_eq_ok.mp hrun
  cases hrun
  have hold {p : PlanId} {x : Plan} (hx : ps.plans[p]? = some x) (y : Plan) :
      (ps.plans.push y)[p]? = some x := by
    have hlt := (Array.getElem?_eq_some_iff.mp hx).1
    rw [Array.getElem?_push, if_neg (Nat.ne_of_lt hlt), hx]
  constructor
  · intro p x hx
    dsimp only at hx
    rw [Array.getElem?_push] at hx
    split at hx
    · next heq =>
      cases hx
      exact ⟨heq.symm, rfl, e.1, rfl, he.1⟩
    · exact h.plan p x hx
  · intro s' p hs'
    dsimp only at hs'
    rw [SortedMap.find?_foldl_insert_const] at hs'
    split at hs'
    · next hmem =>
      cases hs'
      refine ⟨e.1, ⟨_, Array.getElem?_push_size, rfl⟩, ?_⟩
      rcases List.mem_cons.mp hmem with rfl | hmem
      · exact Nat.le_refl _
      · exact Nat.le_of_lt (he.2 s' hmem)
    · obtain ⟨o, ⟨x, hx, ho⟩, hle⟩ := h.scope s' p hs'
      exact ⟨o, ⟨x, hold hx _, ho⟩, hle⟩
  · intro v p hv
    dsimp only at hv ⊢
    rw [Array.size_push]
    rw [SortedMap.find?_foldl_insert_const] at hv
    split at hv
    · cases hv
      exact Nat.lt_succ_self _
    · exact Nat.lt_succ_of_lt (h.var v p hv)
  · exact h.bindings
  · exact h.needed

/-- The plans of candidates in order are such. -/
theorem laid_of_candidates {cs : Candidates} (hcs : cs.Ordered t)
    (h : cs.foldlM (PlanTable.addCandidate t) .empty = .ok ps) : ps.Laid t := by
  refine Lower.foldlM_inv (Laid t) h ⟨?_, ?_, ?_, rfl, rfl⟩ fun e he ps ps' hps hrun =>
    hps.addCandidate (hcs e he) hrun
  · exact fun p x hx => by cases hx
  · exact fun s p hs => by cases hs
  · exact fun v p hv => by cases hv

/-- Needs are noted for plans that are there, and nothing else changes. -/
theorem Laid.addNeeds {ps' : PlanTable} (h : ps.Laid t)
    (hrun : t.closures.toList.foldlM (addNeeds a) ps = .ok ps') : ∃ needed,
      ps' = { ps with needed } ∧
        ∀ c p, p ∈ (needed.find? c).getD [] → p < ps.plans.size ∧ c ∈ t.closureIds := by
  refine Lower.foldlM_inv (fun ps' => ∃ needed, ps' = { ps with needed } ∧
    ∀ c p, p ∈ (needed.find? c).getD [] → p < ps.plans.size ∧ c ∈ t.closureIds) hrun
    ⟨ps.needed, rfl, fun c p hp => ?_⟩ ?_
  · rw [h.needed] at hp
    exact absurd hp List.not_mem_nil
  · rintro k hk _ last ⟨needed, rfl, hneeded⟩ hlast
    obtain ⟨plans, hplans, hlast⟩ := Lower.bind_eq_ok.mp hlast
    cases hlast
    refine ⟨_, rfl, fun c p hp => ?_⟩
    by_cases hc : c = k.id
    · subst hc
      rw [SortedMap.find?_insert_self, Option.getD_some, SortedSet.mem_ofList] at hp
      obtain ⟨v, -, hv⟩ := Lower.mem_of_mapM hplans hp
      refine ⟨h.var v p (Lower.orInconsistent_eq_ok.mp hv), ?_⟩
      exact List.mem_toFinset.mpr (List.mem_append_left _ (List.mem_map_of_mem hk))
    · rw [SortedMap.find?_insert_of_ne hc] at hp
      exact hneeded c p hp

/-- Of a valid tree, linking is handed plans without parents, and nothing is bound yet. -/
theorem grounded_of_unlinked (h : t.validate = .ok ()) {merge : MergePolicy}
    (hps : unlinked t a merge = .ok ps) :
    ps.Grounded t ∧ (∀ p, ps.parent? p = none) ∧ ps.bindings = [] := by
  obtain ⟨cs, hcs, hps⟩ := Lower.bind_eq_ok.mp hps
  obtain ⟨made, hmade, hps⟩ := Lower.bind_eq_ok.mp hps
  have hlaid := laid_of_candidates (candidates_ordered h hcs) hmade
  obtain ⟨needed, rfl, hneeded⟩ := hlaid.addNeeds hps
  have hnone (p : PlanId) : parent? { made with needed } p = none := by
    unfold parent?
    cases hx : made.plans[p]? with
    | none => rfl
    | some x => exact (hlaid.plan p x hx).2.1
  refine ⟨⟨fun p x hx => ?_, hlaid.scope, fun p q hq => ?_, hneeded⟩, hnone, hlaid.bindings⟩
  · obtain ⟨hid, -, ho⟩ := hlaid.plan p x hx
    exact ⟨hid, ho⟩
  · rw [hnone] at hq
    cases hq

end PlanTable

end ClosureEnv
