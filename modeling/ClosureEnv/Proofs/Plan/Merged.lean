import ClosureEnv.Proofs.Plan.Heap
import ClosureEnv.Proofs.Plan.Passes
import Mathlib.Data.List.Sort

/-!
# What scopes are merged into

A scope may go into one that went into another before, or that others go into later, so that what
is checked when it does speaks of candidates, and not of the scopes that they began with. What comes
of it speaks of scopes nonetheless (`PlanTable.MergedSoundly`): down from the scope of a plan to one
that was merged into it there are only blocks, and whoever uses the one uses the other.
-/

namespace ClosureEnv

namespace Captures

/-- A closure needs a variable that the scope declares. -/
def UsesScope (a : Captures) (t : ScopeTree) (c : ClosureId) (s : ScopeId) : Prop :=
  ∃ v x, v ∈ a.needs c ∧ t.vars[v]? = some x ∧ x.scope = s

/-- The scope declares a captured variable that escapes. -/
def EscapesFrom (a : Captures) (t : ScopeTree) (s : ScopeId) : Prop :=
  ∃ v x, v ∈ a.captured ∧ a.escapes v = true ∧ t.vars[v]? = some x ∧ x.scope = s

variable {t : ScopeTree} {holds : VarId → ClosureId → Prop} {a : Captures}

/-- A closure uses a scope if it does so in the tree. -/
theorem Sound.usesScope_iff (ha : a.Sound t) {c : ClosureId} {s : ScopeId} :
    a.UsesScope t c s ↔ t.UsesScope c s := by
  simp only [Captures.UsesScope, ScopeTree.UsesScope, ha.needs]

/-- A variable escapes from a scope that is used for longer than it is there. -/
theorem Traced.escapesFrom_iff (ha : a.Traced t) (h : t.WellBound holds) {s : ScopeId} :
    a.EscapesFrom t s ↔ t.Outlives s := by
  simp only [EscapesFrom, ScopeTree.Outlives, ScopeTree.UsesScope, (ha.sound h).captured,
    Candidates.escapes_iff h ha]
  constructor
  · rintro ⟨v, x, -, ⟨c, hc, hn⟩, hx, hs⟩
    exact ⟨c, hc, v, x, hn, hx, hs⟩
  · rintro ⟨c, hc, v, x, hn, hx, hs⟩
    exact ⟨v, x, ⟨c, hn⟩, ⟨c, hc, hn⟩, hx, hs⟩

end Captures

namespace Candidates

variable {t : ScopeTree} {holds : VarId → ClosureId → Prop} {a : Captures}

/-- Scopes that were merged are inside of the scope of their candidate, and have a variable in
it. -/
def Inside (t : ScopeTree) (cs : Candidates) : Prop :=
  ∀ s c m, SortedMap.find? s cs = some c → m ∈ c.merged →
    Around t.scopes s m ∧ ∃ v ∈ c.slots, ∃ x, t.vars[v]? = some x ∧ x.scope = m

/-- A candidate that goes into another takes the scopes along that were merged into it. -/
theorem Inside.merge (h : t.WellBound holds) {captured : VarId → Prop} {cs : Candidates}
    (hin : cs.Inside t) (hcs : Sound t captured cs) {s o : ScopeId} {x y : Candidate}
    (hj : Joins t a cs s o x y) :
    Inside t (SortedMap.insert o (absorb s x y) (SortedMap.erase s cs)) := by
  intro i c m hc hm
  rcases (find?_absorb_iff cs s o x y i c).mp hc with ⟨rfl, rfl⟩ | ⟨-, -, hc⟩
  · -- it was merged into the outer candidate, or it is the inner one, or was merged into that
    have hm' : m ∈ y.merged ∨ m = s ∨ m ∈ x.merged := by
      simpa [absorb] using hm
    rcases hm' with hm | rfl | hm
    · obtain ⟨ha, v, hv, hrest⟩ := hin i y m hj.outer hm
      exact ⟨ha, v, SortedSet.mem_union.mpr (.inl hv), hrest⟩
    · obtain ⟨v, hv, hrest⟩ := hcs.own m x hj.inner
      exact ⟨hj.target.around, v, SortedSet.mem_union.mpr (.inr hv), hrest⟩
    · obtain ⟨ha, v, hv, hrest⟩ := hin s x m hj.inner hm
      exact ⟨hj.target.around.trans h.preorder ha, v, SortedSet.mem_union.mpr (.inr hv), hrest⟩
  · exact hin i c m hc hm

/-- Scopes that were merged are inside of those that they were merged into. -/
theorem mergeContained_inside (h : t.WellBound holds) {captured : VarId → Prop}
    {cs cs' : Candidates} (hcs : Sound t captured cs)
    (hnone : ∀ s c, SortedMap.find? s cs = some c → c.merged = [])
    (hrun : mergeContained t a cs = .ok cs') : cs'.Inside t := by
  obtain ⟨ss, hss, hmem, -⟩ := deepestFirst_spec hcs
  unfold mergeContained at hrun
  rw [hss, Lower.ok_bind] at hrun
  have hstart : cs.Inside t := by
    intro s c m hc hm
    rw [hnone s c hc] at hm
    cases hm
  obtain ⟨last, hlast, -, hin⟩ := Lower.foldlM_ok (f := mergeOne t a) (l := ss)
    (fun _ cs => Sound t captured cs ∧ cs.Inside t) ⟨hcs, hstart⟩ (by
      rintro done s left cs₁ hsplit ⟨hcs₁, hin₁⟩
      obtain ⟨c, hc⟩ := (hmem s).mp (hsplit ▸ List.mem_append_right _ List.mem_cons_self)
      obtain ⟨cs₂, hrun₂, ⟨rfl, -⟩ | ⟨o, x, y, hj, rfl⟩⟩ := mergeOne_cases h a cs₁ (hcs.lt_size hc)
      · exact ⟨cs₂, hrun₂, hcs₁, hin₁⟩
      · exact ⟨_, hrun₂, hcs₁.merge h hj.target hj.inner hj.outer, hin₁.merge h hcs₁ hj⟩)
  cases hrun.symm.trans hlast
  exact hin

end Candidates

namespace PlanTable

variable {t : ScopeTree} {a : Captures}

/-- No scope was merged into a plan that comes from none. -/
def OnlyIntoScopes (ps : PlanTable) : Prop :=
  ∀ (p : Nat) x, ps.plans[p]? = some x → x.origin = none → x.merged = []

/-- One more plan, into which no scope was merged if it comes from none. -/
theorem OnlyIntoScopes.push {ps ps' : PlanTable} (h : ps.OnlyIntoScopes) {x : Plan}
    (hx : x.origin = none → x.merged = []) (hplans : ps'.plans = ps.plans.push x) :
    ps'.OnlyIntoScopes := by
  intro p y hy ho
  rw [hplans, Array.getElem?_push] at hy
  split at hy
  · cases hy
    exact hx ho
  · exact h p y hy ho

/-- Tables that differ in parents and in how they are kept have the same scopes merged. -/
theorem Alike.onlyIntoScopes {ps ps' : PlanTable} (ha : Alike ps ps') (h : ps.OnlyIntoScopes) :
    ps'.OnlyIntoScopes := by
  intro p x' hx' ho
  obtain ⟨x, hx, hplace⟩ := ha.exists_plan hx'
  have hmerged : x.merged = x'.merged := (congrArg Plan.merged hplace :)
  exact hmerged ▸ h p x hx ((congrArg Plan.origin hplace :).trans ho)

/-- What planning ends with merges scopes into those of plans only. -/
theorem onlyIntoScopes_of_planEnvironments {options : LowerOptions} {ps : PlanTable}
    (h : planEnvironments t a options = .ok ps) : ps.OnlyIntoScopes := by
  obtain ⟨start, linked, hstart, hlinked, hlast, -⟩ := planEnvironments_eq_ok.mp h
  have hmade : start.OnlyIntoScopes := by
    obtain ⟨cs, -, hstart⟩ := Lower.bind_eq_ok.mp hstart
    obtain ⟨ps₁, hps₁, hps₂⟩ := Lower.bind_eq_ok.mp hstart
    have hplans : ps₁.OnlyIntoScopes := by
      refine Lower.foldlM_inv OnlyIntoScopes hps₁ (fun p x hx => (by cases hx)) ?_
      intro e _ ps ps' hps hrun
      obtain ⟨s, -, hrun⟩ := Lower.bind_eq_ok.mp hrun
      cases hrun
      exact hps.push (fun ho => (by cases ho)) rfl
    refine Lower.foldlM_inv OnlyIntoScopes hps₂ hplans ?_
    intro c _ ps ps' hps hrun
    obtain ⟨needed, -, hrun⟩ := Lower.bind_eq_ok.mp hrun
    cases hrun
    exact hps
  have hplaces := (aligned_linkParents hlinked).toAlike.trans (alike_assignRepresentations t linked)
  have hempty {ps ps' : PlanTable} {identity : EnvIdentity} {owner : Option FnId} {single : Bool}
      {cs : List ClosureId} (hps : ps.OnlyIntoScopes)
      (hps' : ps' = ps.addEmpty identity owner single cs) : ps'.OnlyIntoScopes :=
    hps.push (x := emptyPlan ps.plans.size identity owner single) (fun _ => rfl) (by rw [hps']; rfl)
  obtain ⟨closures, -, hlast⟩ := Lower.bind_eq_ok.mp hlast
  obtain ⟨mid, hmid, hlast⟩ := Lower.bind_eq_ok.mp hlast
  have hgeneric : mid.OnlyIntoScopes := by
    refine Lower.foldlM_inv OnlyIntoScopes hmid (hplaces.onlyIntoScopes hmade) ?_
    intro f _ ps ps' hps hrun
    obtain ⟨fn, -, hrun⟩ := Lower.bind_eq_ok.mp hrun
    cases hrun
    exact hempty hps rfl
  split at hlast
  · cases hlast
    exact hgeneric
  · cases hlast
    exact hempty hgeneric rfl

/-- What holds of the scopes that were merged into plans, given what closures capture. -/
structure MergedSoundly (t : ScopeTree) (a : Captures) (ps : PlanTable) : Prop where
  /-- A merged scope is inside of that of its plan. Down from there to it there are only blocks,
  and no plan comes from one of them. -/
  way : ∀ (p : Nat) x m, ps.plans[p]? = some x → m ∈ x.merged →
    ∃ o, x.origin = some o ∧ Around t.scopes o m ∧ Clear t ps o m
  /-- Whoever uses a merged scope uses that of its plan. -/
  users : ∀ (p : Nat) x m o, ps.plans[p]? = some x → m ∈ x.merged → x.origin = some o →
    ∀ c, a.UsesScope t c m → a.UsesScope t c o
  /-- A variable escapes from a merged scope if one escapes from that of its plan. -/
  escapes : ∀ (p : Nat) x m o, ps.plans[p]? = some x → m ∈ x.merged → x.origin = some o →
    (a.EscapesFrom t m ↔ a.EscapesFrom t o)
  /-- The scope of a captured variable is that of one plan, or was merged into it. -/
  one : ∀ v ∈ a.captured, ∃ y, t.vars[v]? = some y ∧
    ∃! p : Nat, ∃ x o, ps.plans[p]? = some x ∧ x.origin = some o ∧ y.scope ∈ o :: x.merged

end PlanTable

namespace Planning

variable {t : ScopeTree} {holds : VarId → ClosureId → Prop} {a : Captures} {merge : MergePolicy}
  {single cs : Candidates} {start linked ps : PlanTable}
  (hp : Planning t a merge single cs start linked ps)
include hp

/-- A plan that comes from a scope has what the candidate of the scope has. -/
theorem exists_candidate {p : PlanId} {x : Plan} {o : ScopeId} (hx : ps.plans[p]? = some x)
    (ho : x.origin = some o) :
    ∃ c, cs[p]? = some (o, c) ∧ SortedMap.find? o cs = some c ∧ x.merged = c.merged := by
  obtain ⟨closures, done, hserved, -⟩ := hp.served
  rcases hserved.ext.new p x hx with hx | ⟨-, hempty⟩
  · have hlike := hp.aligned.toAlike.trans (PlanTable.alike_assignRepresentations t linked)
    obtain ⟨y, hy, hplace⟩ := hlike.exists_plan hx
    rw [hp.made.plan] at hy
    obtain ⟨⟨s, c⟩, hc, rfl⟩ := Option.map_eq_some_iff.mp hy
    have hs : some s = x.origin := (congrArg Plan.origin hplace :)
    rw [ho] at hs
    cases hs
    exact ⟨c, hc, hp.sound.sorted.mem_iff.mp (List.mem_of_getElem? hc),
      (congrArg Plan.merged hplace :).symm⟩
  · rw [hempty.origin] at ho
    cases ho

/-- The scopes of a plan are known to have it. -/
theorem scopePlan_eq {p : PlanId} {x : Plan} {o m : ScopeId} (hx : ps.plans[p]? = some x)
    (ho : x.origin = some o) (hm : m ∈ o :: x.merged) : ps.scopePlan.find? m = some p := by
  obtain ⟨closures, done, hserved, -⟩ := hp.served
  obtain ⟨c, hc, -, hmerged⟩ := hp.exists_candidate hx ho
  rw [hserved.ext.scopePlan, (PlanTable.alike_assignRepresentations t linked).scopePlan,
    hp.aligned.scopePlan]
  exact (hp.made.scope_plan m p).mpr ⟨_, hc, hmerged ▸ hm⟩

/-- The scopes that were merged into candidates are inside of theirs. -/
theorem inside (h : t.WellBound holds) : cs.Inside t := by
  cases hm : merge with
  | never =>
    intro s c m hc hmem
    rw [hp.never hm] at hc
    rw [hp.single_merged s c hc] at hmem
    cases hmem
  | contained =>
    exact Candidates.mergeContained_inside h hp.single_sound hp.single_merged (hp.contained hm)

/-- A merged scope ends up in that of its plan. -/
theorem mergesInto_of_merged (hm : merge = .contained) (h : t.WellBound holds) (ha : a.Traced t)
    {p : PlanId} {x : Plan} {o m : ScopeId} (hx : ps.plans[p]? = some x)
    (ho : x.origin = some o) (hmem : m ∈ x.merged) :
    Relation.ReflTransGen t.MergesInto m o := by
  obtain ⟨c, -, hc, hmerged⟩ := hp.exists_candidate hx ho
  obtain ⟨-, v, hv, y, hy, rfl⟩ := hp.inside h o c m hc (hmerged ▸ hmem)
  subst hm
  obtain ⟨-, y', hy', hhome⟩ := ((hp.candidates_homed h ha).slot v o).mp ⟨c, hc, hv⟩
  cases hy.symm.trans hy'
  exact hhome.1

end Planning

/-- In the plans of a bound module whose environments are merged, the scopes that were merged into
one are inside of blocks of its scope with nothing but blocks in between, no plan comes from one of
those, whoever uses a merged scope uses that of the plan, and variables escape from both or from
neither. The scope of a captured variable belongs to one plan. -/
theorem planEnvironments_mergedSoundly {unit : String} {m : Syntax.Module} {t : ScopeTree}
    (ht : bindModule m unit = .ok t) (incremental : Bool) : ∃ a ps,
      Captures.analyze t = .ok a ∧ planEnvironments t a ⟨.contained, incremental⟩ = .ok ps ∧
        ps.MergedSoundly t a := by
  obtain ⟨holds, h⟩ := wellBound_of_bindModule ht
  obtain ⟨a, ha, htraced⟩ := Captures.analyze_traced h
  have hsound := htraced.sound h
  obtain ⟨ps, hps, single, cs, start, linked, hp⟩ := exists_planning h hsound ⟨.contained, incremental⟩
  have hplans := hp.plans_sound h
  refine ⟨a, ps, ha, hps, ⟨fun p x m hx hm => ?_, fun p x m o hx hm ho c hc => ?_,
    fun p x m o hx hm ho => ?_, fun v hv => ?_⟩⟩
  · cases ho : x.origin with
    | none =>
      rw [PlanTable.onlyIntoScopes_of_planEnvironments hps p x hx ho] at hm
      cases hm
    | some o =>
      obtain ⟨c, -, hc, hmerged⟩ := hp.exists_candidate hx ho
      obtain ⟨o', ho', hclear⟩ := hplans.linking.placed.scope_plan m p
        (hp.scopePlan_eq hx ho (List.mem_cons_of_mem _ hm))
      cases ho'.unique ⟨x, hx, ho⟩
      exact ⟨o, rfl, (hp.inside h o c m hc (hmerged ▸ hm)).1, hclear⟩
  · rw [hsound.usesScope_iff] at hc ⊢
    exact hc.merge (hp.mergesInto_of_merged rfl h htraced hx ho hm)
  · rw [htraced.escapesFrom_iff h, htraced.escapesFrom_iff h]
    exact ScopeTree.outlives_iff_of_merge (hp.mergesInto_of_merged rfl h htraced hx ho hm)
  · obtain ⟨p, hvp⟩ := hplans.linking.placed.covered v ((hsound.captured v).mp hv)
    obtain ⟨x, hx, hvx⟩ := hplans.linking.placed.var_plan v p hvp
    obtain ⟨-, -, y, -, hy, -⟩ := hplans.linking.placed.slot p x v hx hvx
    obtain ⟨o, ho, hys⟩ := hplans.linking.placed.declared p x v y hx hvx hy
    refine ⟨y, hy, p, ⟨x, o, hx, ho, hys⟩, ?_⟩
    rintro q ⟨x', o', hx', ho', hys'⟩
    exact Option.some.inj ((hp.scopePlan_eq hx' ho' hys').symm.trans (hp.scopePlan_eq hx ho hys))

/-! ## A source with a merged scope -/

namespace Syntax

/-- The source `fn main() { let a = 1; { let b = 2; { let c = 3; let f = || a + b + c;
let g = || a + c; f() + g() } } }`, with its spans left out. -/
def overlapSource : Module :=
  let here : Span := ⟨0, 0⟩
  let var (text : String) : Expr := .var ⟨text, here⟩
  let bind (text : String) (value : Expr) : Stmt := .bind false ⟨text, here⟩ none value here
  let sum (x y : Expr) : Expr := .binary .add x y here
  let call (text : String) : Expr := .call (var text) [] here
  let f : Stmt := bind "f" (.closure [] (sum (sum (var "a") (var "b")) (var "c")) here)
  let g : Stmt := bind "g" (.closure [] (sum (var "a") (var "c")) here)
  let inner : Block := .mk [bind "c" (.lit (.int 3) here), f, g]
    (some (sum (call "f") (call "g"))) here
  let middle : Block := .mk [bind "b" (.lit (.int 2) here)] (some (.block inner)) here
  let outer : Block := .mk [bind "a" (.lit (.int 1) here)] (some (.block middle)) here
  ⟨[.function ⟨⟨"main", here⟩, [], [], none, outer, here⟩], here⟩

end Syntax

namespace Candidates

/-- Of two scopes with their depths, the deeper one comes first, and of one depth the later one. -/
def Before (x y : Nat × ScopeId) : Prop :=
  (decide (y.1 < x.1) || (x.1 == y.1 && decide (y.2 ≤ x.2))) = true

instance : DecidableRel Before :=
  fun _ _ => inferInstanceAs (Decidable (_ = true))

/-- The order of the turns. -/
theorem before_iff {x y : Nat × Nat} : Before x y ↔ y.1 < x.1 ∨ x.1 = y.1 ∧ y.2 ≤ x.2 := by
  simp [Before]

instance : Std.Total Before :=
  ⟨fun x y => by rw [before_iff, before_iff]; omega⟩

instance : IsTrans _ Before :=
  ⟨fun x y z => by rw [before_iff, before_iff, before_iff]; omega⟩

instance : Std.Antisymm Before :=
  ⟨fun x y hxy hyx => by
    rw [before_iff] at hxy hyx
    exact Prod.ext (by omega) (Nat.le_antisymm (by omega) (by omega))⟩

/-- The scopes in the order of their turns, by a recursion that can be evaluated. -/
theorem deepestFirst_eq (t : ScopeTree) (cs : Candidates) : deepestFirst t cs = do
    let keyed ← (SortedMap.keys cs).mapM fun s => do return ((← t.scope s).depth, s)
    return (keyed.insertionSort Before).map Prod.snd := by
  unfold deepestFirst
  refine congrArg _ (funext fun keyed => ?_)
  rw [← List.mergeSort_eq_insertionSort]
  refine congrArg (fun le => pure ((keyed.mergeSort le).map Prod.snd)) ?_
  exact funext fun x => funext fun y => (Bool.decide_coe _).symm

end Candidates

/-- So it is for a source in which a scope is merged. -/
theorem planEnvironments_mergedSoundly_overlapSource : ∃ t a ps,
    bindModule Syntax.overlapSource "u" = .ok t ∧ Captures.analyze t = .ok a ∧
      planEnvironments t a ⟨.contained, true⟩ = .ok ps ∧ ps.MergedSoundly t a ∧
      ∃ x ∈ ps.plans, x.merged ≠ [] := by
  have hsome : ((bindModule Syntax.overlapSource "u").toOption.bind fun t =>
      (Captures.analyze t).toOption.bind fun a =>
        (planEnvironments t a ⟨.contained, true⟩).toOption.map fun ps =>
          ps.plans.any fun x => !x.merged.isEmpty) = some true := by
    simp only [planEnvironments, Candidates.mergeContained, Candidates.deepestFirst_eq]
    decide +kernel
  obtain ⟨t, ht, hsome⟩ := Option.bind_eq_some_iff.mp hsome
  obtain ⟨a, ha, hsome⟩ := Option.bind_eq_some_iff.mp hsome
  obtain ⟨ps, hps, hsome⟩ := Option.map_eq_some_iff.mp hsome
  rw [Lower.toOption_eq_some] at ht ha hps
  obtain ⟨a', ps', ha', hps', hmerged⟩ := planEnvironments_mergedSoundly ht true
  cases ha.symm.trans ha'
  cases hps.symm.trans hps'
  obtain ⟨x, hx, hne⟩ := Array.any_eq_true'.mp hsome
  exact ⟨t, a, ps, ht, ha, hps, hmerged, x, hx, by simpa using hne⟩

end ClosureEnv
