import ClosureEnv.Plan.Planning
import ClosureEnv.Proofs.Plan.Linking

/-!
# The passes of planning, in any tree

Planning passes a table on from one stage to the next. What a stage leaves alone, it leaves alone in
every scope tree, whether lowering could rely on the tree or not: what is said here takes nothing
for granted but that the stage came to its end.
-/

namespace ClosureEnv.PlanTable

variable {t : ScopeTree} {ps next : PlanTable}

/-- The candidates that become plans. -/
def candidates (t : ScopeTree) (a : Captures) (merge : MergePolicy) : Lower Candidates := do
  let single ← Candidates.ofCaptures t a
  match merge with
  | .never => return single
  | .contained => single.mergeContained t a

/-- The table that is handed to linking: the plans of the candidates, and what closures need. -/
def unlinked (t : ScopeTree) (a : Captures) (merge : MergePolicy) : Lower PlanTable := do
  let ps ← (← candidates t a merge).foldlM (addCandidate t) .empty
  t.closures.toList.foldlM (addNeeds a) ps

/-- The stages of planning from there on. -/
theorem planEnvironments_eq_ok {a : Captures} {options : LowerOptions} {ps : PlanTable} :
    planEnvironments t a options = .ok ps ↔ ∃ start linked, unlinked t a options.merge = .ok start ∧
      start.linkParents t = .ok linked ∧
      (linked.assignRepresentations t).bindStateless t = .ok ps ∧ ps.checkForest = .ok () := by
  have hsplit : planEnvironments t a options = (do
      let start ← unlinked t a options.merge
      let linked ← start.linkParents t
      let ps ← (linked.assignRepresentations t).bindStateless t
      ps.checkForest
      return ps) := by
    unfold planEnvironments unlinked candidates
    cases options.merge <;> simp only [bind_assoc, pure_bind]
  rw [hsplit]
  constructor
  · intro h
    obtain ⟨start, hstart, h⟩ := Lower.bind_eq_ok.mp h
    obtain ⟨linked, hlinked, h⟩ := Lower.bind_eq_ok.mp h
    obtain ⟨last, hlast, h⟩ := Lower.bind_eq_ok.mp h
    obtain ⟨⟨⟩, hforest, h⟩ := Lower.bind_eq_ok.mp h
    cases h
    exact ⟨start, linked, hstart, hlinked, hlast, hforest⟩
  · rintro ⟨start, linked, hstart, hlinked, hlast, hforest⟩
    rw [hstart, Lower.ok_bind, hlinked, Lower.ok_bind, hlast, Lower.ok_bind, hforest]
    rfl

/-! ## Linking -/

/-- The parts of a round: links for the closures, in the table as it was, and needs for the plans
and for the closures, in the table with the links. -/
theorem linkRound_eq_ok {changed : Bool} :
    ps.linkRound t = .ok (next, changed) ↔ ∃ links forParents forClosures,
      t.closures.toList.mapM (fun c => ps.linksFor t c.id) = .ok links ∧
      (links.flatten.foldl link ps).plans.toList.mapM
        ((links.flatten.foldl link ps).carriedForParent t) = .ok forParents ∧
      t.closures.toList.mapM ((links.flatten.foldl link ps).carriedForClosure t) = .ok forClosures ∧
      next = (forParents.flatten ++ forClosures.flatten).foldl need (links.flatten.foldl link ps) ∧
      changed = (links.flatten.any (fun l => !ps.isLinked l) ||
        (forParents.flatten ++ forClosures.flatten).any fun n =>
          !(links.flatten.foldl link ps).isNeeded n) := by
  unfold linkRound
  constructor
  · intro h
    obtain ⟨links, hlinks, h⟩ := Lower.bind_eq_ok.mp h
    obtain ⟨forParents, hparents, h⟩ := Lower.bind_eq_ok.mp h
    obtain ⟨forClosures, hclosures, h⟩ := Lower.bind_eq_ok.mp h
    cases h
    exact ⟨links, forParents, forClosures, hlinks, hparents, hclosures, rfl, rfl⟩
  · rintro ⟨links, forParents, forClosures, hlinks, hparents, hclosures, rfl, rfl⟩
    rw [hlinks, Lower.ok_bind]
    dsimp only
    rw [hparents, Lower.ok_bind, hclosures, Lower.ok_bind]
    rfl

/-- Notes of what closures need leave plans alone. -/
theorem aligned_foldl_need (needs : List (ClosureId × PlanId)) (ps : PlanTable) :
    Aligned ps (needs.foldl need ps) ∧ (needs.foldl need ps).plans = ps.plans := by
  obtain ⟨hplans, hscopes, hvars, -⟩ := foldl_need needs ps
  exact ⟨.of_plans hscopes hvars hplans, hplans⟩

/-- A round leaves the places of plans alone. -/
theorem aligned_linkRound {changed : Bool} (h : ps.linkRound t = .ok (next, changed)) :
    Aligned ps next := by
  obtain ⟨links, forParents, forClosures, -, -, -, rfl, -⟩ := linkRound_eq_ok.mp h
  exact (foldl_link links.flatten ps).1.trans (aligned_foldl_need _ _).1

/-- Rounds leave the places of plans alone. -/
theorem aligned_linkRounds {bound : Nat} (h : linkRounds t bound ps = .ok next) :
    Aligned ps next := by
  induction bound generalizing ps with
  | zero =>
    cases h
    exact .of_plans rfl rfl rfl
  | succ bound ih =>
    rw [linkRounds] at h
    obtain ⟨⟨mid, changed⟩, hmid, h⟩ := Lower.bind_eq_ok.mp h
    have hfirst := aligned_linkRound hmid
    cases changed with
    | false =>
      cases h
      exact hfirst
    | true => exact hfirst.trans (ih h)

/-- Closures that are bound leave plans alone. -/
theorem plans_foldlM_bindDirect {l : List Closure} (h : l.foldlM (bindDirect t) ps = .ok next) :
    ∃ bindings, next = { ps with bindings } := by
  refine Lower.foldlM_inv (fun ps' => ∃ bindings, ps' = { ps with bindings }) h ⟨_, rfl⟩ ?_
  rintro c - _ mid ⟨bindings, rfl⟩ hmid
  unfold bindDirect at hmid
  obtain ⟨r, -, hr⟩ := Lower.bind_eq_ok.mp hmid
  cases r <;>
  · cases hr
    exact ⟨_, rfl⟩

/-- Linking leaves the places of plans alone. -/
theorem aligned_linkParents (h : ps.linkParents t = .ok next) : Aligned ps next := by
  obtain ⟨mid, hmid, h⟩ := Lower.bind_eq_ok.mp h
  obtain ⟨bindings, rfl⟩ := plans_foldlM_bindDirect h
  exact (aligned_linkRounds hmid).trans (.of_plans rfl rfl rfl)

end ClosureEnv.PlanTable
