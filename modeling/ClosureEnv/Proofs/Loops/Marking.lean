import ClosureEnv.Proofs.Graph.Closed
import ClosureEnv.Proofs.Loops.Rounds
import ClosureEnv.Proofs.Plan.Sound

/-!
# Marking what is on the heap

`assignRepresentations` asks for all plans within reach at once. The loops given here put one plan
after another on the heap. The first begins at the plans of escaping closures and goes up along
parents from each. The second sweeps over the table and puts there what the plans on the heap refer
to, until a sweep changes nothing. In the tables of valid trees both are over, and have found the
plans within reach (`PlanTable.Grounded.mark_ends`, `PlanTable.Marked.sweep_ends`): nothing else is
ever put on the heap, and where a sweep changes nothing, nothing within reach is left out.
-/

namespace ClosureEnv.PlanTable

variable {t : ScopeTree} {ps ps' : PlanTable}

/-! ## The loops -/

/-- Puts the environment of a plan on the heap. -/
def setReference (ps : PlanTable) (p : PlanId) : PlanTable :=
  { ps with plans := ps.plans.modify p fun x => { x with repr := .reference } }

/-- The plans that escaping closures are bound to directly. -/
def escapingPlans (t : ScopeTree) (ps : PlanTable) : List PlanId :=
  t.closures.toList.filterMap ps.escapingPlan?

/-- A turn of the loop that goes up along parents from some plans, one after another, and puts on
the heap what it meets. -/
def markTurn : PlanTable × Option PlanId × List PlanId →
    Lower (PlanTable × Option PlanId × List PlanId ⊕ PlanTable)
  | (ps, some p, rest) => return .inl (ps.setReference p, ps.parent? p, rest)
  | (ps, none, d :: rest) => return .inl (ps, some d, rest)
  | (ps, none, []) => return .inr ps

/-- Whether the environment of a plan is on the heap. -/
def isOnHeap (ps : PlanTable) (p : PlanId) : Bool :=
  ps.plans[p]?.any (·.repr == .reference)

/-- The parent of a plan, if the plan is on the heap and the parent is not. -/
def leftOut? (ps : PlanTable) (p : PlanId) : Option PlanId :=
  if ps.isOnHeap p then (ps.parent? p).filter fun q => !ps.isOnHeap q else none

/-- Puts what is left out for a plan on the heap, and notes the change. -/
def sweepStep (st : PlanTable × Bool) (p : PlanId) : PlanTable × Bool :=
  match st.1.leftOut? p with
  | some q => (st.1.setReference q, true)
  | none => st

/-- A turn of the loop that sweeps until nothing changes. -/
def sweepTurn (ps : PlanTable) : Lower (PlanTable ⊕ PlanTable) :=
  let (next, changed) := (List.range ps.plans.size).foldl sweepStep (ps, false)
  return if changed then .inl next else .inr next

/-! ## Tables with more on the heap -/

/-- What is asked for is asked of the table. -/
theorem isOnHeap_iff {p : PlanId} : ps.isOnHeap p = true ↔ ps.OnHeap p := by
  simp [isOnHeap, OnHeap, Option.any_eq_true]

/-- Nothing more leaves the table as it is. -/
theorem onHeapToo_nil : ps.onHeapToo [] = ps := by
  simp [onHeapToo]

namespace Grounded

variable (hg : ps.Grounded t)

include hg

/-- Plans are numbered by position. -/
theorem plan_id (p : Nat) (x : Plan) (hx : ps.plans[p]? = some x) : x.id = p :=
  (hg.plan p x hx).1

/-- One more plan. -/
theorem setReference_onHeapToo (m : List PlanId) (p : PlanId) :
    (ps.onHeapToo m).setReference p = ps.onHeapToo (p :: m) := by
  have hplans : ((ps.onHeapToo m).setReference p).plans = (ps.onHeapToo (p :: m)).plans := by
    refine Array.ext_getElem? fun q => ?_
    rw [getElem?_onHeapToo hg.plan_id, setReference]
    dsimp only
    rw [Array.getElem?_modify, getElem?_onHeapToo hg.plan_id]
    cases ps.plans[q]? with
    | none => split <;> rfl
    | some x =>
      by_cases hpq : p = q
      · subst hpq
        by_cases hm : p ∈ m <;> simp [hm]
      · simp [hpq, Ne.symm hpq]
  exact congrArg (fun plans => { ps with plans }) hplans

/-- What is on the heap tells such tables apart. -/
theorem onHeapToo_congr {m m' : List PlanId}
    (h : ∀ p, (ps.onHeapToo m).OnHeap p ↔ (ps.onHeapToo m').OnHeap p) :
    ps.onHeapToo m = ps.onHeapToo m' := by
  have hplans : (ps.onHeapToo m).plans = (ps.onHeapToo m').plans := by
    refine Array.ext_getElem? fun p => ?_
    rw [getElem?_onHeapToo hg.plan_id, getElem?_onHeapToo hg.plan_id]
    cases hx : ps.plans[p]? with
    | none => rfl
    | some x =>
      have hlt := (Array.getElem?_eq_some_iff.mp hx).1
      have hp := h p
      rw [onHeap_onHeapToo hg.plan_id, onHeap_onHeapToo hg.plan_id] at hp
      -- a plan that is on the heap already does not change
      have hsame (hheap : ps.OnHeap p) : { x with repr := .reference } = x := by
        obtain ⟨y, hy, hr⟩ := hheap
        cases hx.symm.trans hy
        rw [← hr]
      by_cases hm : p ∈ m <;> by_cases hm' : p ∈ m'
      · simp [hm, hm']
      · simpa [hm, hm'] using hsame (by simpa [hlt, hm, hm'] using hp)
      · simpa [hm, hm'] using (hsame (by simpa [hlt, hm, hm'] using hp)).symm
      · simp [hm, hm']
  exact congrArg (fun plans => { ps with plans }) hplans

end Grounded

/-! ## What is left out -/

/-- Plans that belong on the heap are there, and those of escaping closures are, except for
`todo`. -/
def Marked (t : ScopeTree) (ps : PlanTable) (todo : List PlanId) (ps' : PlanTable) : Prop :=
  ∃ m, ps' = ps.onHeapToo m ∧ (∀ p ∈ m, p ∈ ps.heapPlans t) ∧
    ∀ p ∈ ps.escapingPlans t, p ∈ m ∨ p ∈ todo

namespace Marked

variable {todo : List PlanId}

/-- To begin with, everything is left to do. -/
theorem start (t : ScopeTree) (ps : PlanTable) : Marked t ps (ps.escapingPlans t) ps :=
  ⟨[], onHeapToo_nil.symm, fun _ hp => absurd hp List.not_mem_nil, fun _ hp => .inr hp⟩

/-- Parents stay. -/
theorem parent? (h : Marked t ps todo ps') (p : PlanId) : ps'.parent? p = ps.parent? p := by
  obtain ⟨m, rfl, -⟩ := h
  exact parent?_onHeapToo ps m p

/-- One more plan that belongs on the heap is put there. -/
theorem setReference (h : Marked t ps todo ps') (hg : ps.Grounded t) {p : PlanId}
    (hp : p ∈ ps.heapPlans t) {rest : List PlanId} (htodo : ∀ q ∈ todo, q = p ∨ q ∈ rest) :
    Marked t ps rest (ps'.setReference p) := by
  obtain ⟨m, rfl, hm, hrest⟩ := h
  refine ⟨p :: m, hg.setReference_onHeapToo m p, ?_, fun q hq => ?_⟩
  · exact List.forall_mem_cons.mpr ⟨hp, hm⟩
  · rcases hrest q hq with hq | hq
    · exact .inl (List.mem_cons_of_mem _ hq)
    · rcases htodo q hq with rfl | hq
      · exact .inl List.mem_cons_self
      · exact .inr hq

end Marked

/-- One that is left out is the parent of a plan on the heap, and is not there. -/
theorem leftOut?_eq_some {p q : PlanId} : ps.leftOut? p = some q ↔
    ps.OnHeap p ∧ ps.parent? p = some q ∧ ¬ ps.OnHeap q := by
  unfold leftOut?
  rw [← isOnHeap_iff, ← isOnHeap_iff]
  split <;> simp [*]

/-- What a sweep has changed is noted. -/
theorem foldl_sweepStep_true (l : List PlanId) (ps : PlanTable) :
    (l.foldl sweepStep (ps, true)).2 = true := by
  induction l generalizing ps with
  | nil => rfl
  | cons p l ih =>
    rw [List.foldl_cons, sweepStep]
    split
    · exact ih _
    · exact ih ps

/-- A sweep that changes nothing finds nothing left out. -/
theorem foldl_sweepStep_false {l : List PlanId} (h : (l.foldl sweepStep (ps, false)).2 = false) :
    (l.foldl sweepStep (ps, false)).1 = ps ∧ ∀ p ∈ l, ps.leftOut? p = none := by
  induction l with
  | nil => exact ⟨rfl, fun p hp => absurd hp List.not_mem_nil⟩
  | cons p l ih =>
    rw [List.foldl_cons, sweepStep] at h ⊢
    cases hp : ps.leftOut? p with
    | some q =>
      simp only [hp, foldl_sweepStep_true] at h
      cases h
    | none =>
      simp only [hp] at h ⊢
      obtain ⟨hps, hrest⟩ := ih h
      exact ⟨hps, List.forall_mem_cons.mpr ⟨hp, hrest⟩⟩

/-- After a turn that goes on, a sweep has changed something. -/
theorem foldl_of_sweepTurn {next : PlanTable} (h : sweepTurn ps = .ok (.inl next)) :
    (List.range ps.plans.size).foldl sweepStep (ps, false) = (next, true) := by
  unfold sweepTurn at h
  generalize (List.range ps.plans.size).foldl sweepStep (ps, false) = st at h ⊢
  obtain ⟨after, changed⟩ := st
  cases changed <;> cases h
  rfl

/-- The last turn leaves the table as it is, and finds nothing left out. -/
theorem closed_of_sweepTurn {r : Lower PlanTable} (h : sweepTurn ps = r.map .inr) :
    r = .ok ps ∧ ∀ p < ps.plans.size, ps.leftOut? p = none := by
  have hfalse := @foldl_sweepStep_false ps (List.range ps.plans.size)
  unfold sweepTurn at h
  generalize (List.range ps.plans.size).foldl sweepStep (ps, false) = st at h hfalse
  obtain ⟨after, changed⟩ := st
  cases changed with
  | true => cases r <;> cases h
  | false =>
    obtain ⟨rfl, hclosed⟩ := hfalse rfl
    cases r with
    | error e => cases h
    | ok r =>
      cases h
      exact ⟨rfl, fun p hp => hclosed p (List.mem_range.mpr hp)⟩

/-- Where nothing is left out, exactly what belongs on the heap is there. -/
theorem Marked.eq_assignRepresentations (h : Marked t ps [] ps') (hg : ps.Grounded t)
    (hesc : ∀ p ∈ ps.escapingPlans t, p < ps.plans.size)
    (hclosed : ∀ p < ps'.plans.size, ps'.leftOut? p = none) : ps' = ps.assignRepresentations t := by
  -- No plan is left out, so what is on the heap is closed upwards.
  have hup (p q : PlanId) (hheap : ps'.OnHeap p) (hq : ps.parent? p = some q) : ps'.OnHeap q := by
    by_contra hno
    have hlt : p < ps'.plans.size := by
      obtain ⟨x, hx, -⟩ := hheap
      exact (Array.getElem?_eq_some_iff.mp hx).1
    have hleft := leftOut?_eq_some.mpr ⟨hheap, (h.parent? p).trans hq, hno⟩
    rw [hclosed p hlt] at hleft
    cases hleft
  obtain ⟨m, rfl, hm, hdone⟩ := h
  -- Whatever is reachable is on the heap: the heap has the start and is closed.
  have hall (p : PlanId) (hmem : p ∈ ps.heapPlans t) : (ps.onHeapToo m).OnHeap p := by
    refine Graph.of_mem_reachable (S := (ps.onHeapToo m).OnHeap) (fun p hp => ?_)
      (fun p hheap q hq => hup p q hheap (Option.mem_toList.mp hq)) hmem
    rcases List.mem_append.mp hp with hp | hp
    · refine (onHeap_onHeapToo hg.plan_id).mpr ⟨hesc p hp, .inl ((hdone p hp).resolve_right ?_)⟩
      exact List.not_mem_nil
    · obtain ⟨x, hx, hr⟩ := onHeap_of_stated hg.plan_id hp
      exact (onHeap_onHeapToo hg.plan_id).mpr
        ⟨(Array.getElem?_eq_some_iff.mp hx).1, .inr ⟨x, hx, hr⟩⟩
  show ps.onHeapToo m = ps.onHeapToo (ps.heapPlans t)
  refine hg.onHeapToo_congr fun p => ?_
  constructor
  · intro hheap
    obtain ⟨hlt, hpm⟩ := (onHeap_onHeapToo hg.plan_id).mp hheap
    exact (onHeap_onHeapToo hg.plan_id).mpr ⟨hlt, hpm.imp_left (hm p)⟩
  · intro hheap
    obtain ⟨-, hpm | hpm⟩ := (onHeap_onHeapToo hg.plan_id).mp hheap
    · exact hall p hpm
    · exact hall p (mem_heapPlans_of_onHeap hg.plan_id hpm)

/-! ## Going up from the plans of escaping closures -/

section

variable (hg : ps.Grounded t) (hp : Preorder t.scopes)
  (hesc : ∀ p ∈ ps.escapingPlans t, p < ps.plans.size)

include hg hp hesc

/-- The parent of a plan that belongs on the heap belongs there. -/
theorem Grounded.mem_heapPlans_of_parent {p q : PlanId} (h : p ∈ ps.heapPlans t)
    (hq : ps.parent? p = some q) : q ∈ ps.heapPlans t := by
  refine Graph.mem_reachable_of_mem_next (fun x hx => ?_) (fun x _ y hy => ?_) h
    (Option.mem_toList.mpr hq)
  · rcases List.mem_append.mp hx with hx | hx
    · exact hesc x hx
    · obtain ⟨y, hy, -⟩ := onHeap_of_stated hg.plan_id hx
      exact (Array.getElem?_eq_some_iff.mp hy).1
  · exact hg.nearest_lt_size hp (hg.parent x y (Option.mem_toList.mp hy))

/-- What is known of a table and of the plans from which to go up. -/
structure MarkState (t : ScopeTree) (ps : PlanTable)
    (st : PlanTable × Option PlanId × List PlanId) : Prop where
  marked : Marked t ps (st.2.1.toList ++ st.2.2) st.1
  /-- One only meets what belongs on the heap. -/
  cur : ∀ p, st.2.1 = some p → p ∈ ps.heapPlans t
  rest : ∀ p ∈ st.2.2, p ∈ ps.heapPlans t

/-- How long it may take to go up from some plans. -/
def markLeft (t : ScopeTree) (ps : PlanTable) (st : PlanTable × Option PlanId × List PlanId) : Nat :=
  st.2.2.length * (t.scopes.size + 2) + st.2.1.elim 0 fun p => (ps.origin? p).getD 0 + 1

/-- A turn goes on with what is known, and takes less long. -/
theorem MarkState.turn {st next : PlanTable × Option PlanId × List PlanId} (h : MarkState t ps st)
    (hturn : markTurn st = .ok (.inl next)) :
    MarkState t ps next ∧ ps.markLeft t next < ps.markLeft t st := by
  obtain ⟨ps', cur, rest⟩ := st
  cases cur with
  | some p =>
    cases hturn
    have hheap := h.cur p rfl
    have hmarked : Marked t ps rest (ps'.setReference p) :=
      h.marked.setReference hg hheap fun q hq => by simpa using hq
    have hparent := h.marked.parent? p
    dsimp only at hparent
    rw [hparent]
    cases hq : ps.parent? p with
    | none =>
      refine ⟨⟨by simpa [hq] using hmarked, fun q hq => ?_, h.rest⟩, ?_⟩
      · cases hq
      · simp [markLeft]
    | some q =>
      -- The parent comes from further out, so what is left of this way up gets less.
      obtain ⟨s, o, hs, ho, hlt⟩ := hg.nearest_lt hp (hg.parent p q hq)
      refine ⟨⟨?_, fun q' hq' => ?_, h.rest⟩, ?_⟩
      · obtain ⟨m, hm, hsub, hdone⟩ := hmarked
        exact ⟨m, hm, hsub, fun r hr => (hdone r hr).imp_right (List.mem_append_right _)⟩
      · cases hq'
        exact hg.mem_heapPlans_of_parent hp hesc hheap hq
      · simp only [markLeft, Option.elim_some, hs.origin?, ho.origin?, Option.getD_some]
        exact Nat.add_lt_add_left (Nat.succ_lt_succ hlt) _
  | none =>
    cases rest with
    | nil => cases hturn
    | cons d rest =>
      cases hturn
      refine ⟨⟨h.marked, fun p hp => ?_, fun p hp => h.rest p (List.mem_cons_of_mem _ hp)⟩, ?_⟩
      · cases hp
        exact h.rest _ List.mem_cons_self
      · -- A new way up costs no more than what its start counted for among those that wait.
        have hlt := Nat.lt_succ_of_le (hg.origin_le d)
        simp only [markLeft, Option.elim_some, Option.elim_none, List.length_cons, Nat.succ_mul]
        omega

/-- Going up from the plans of escaping closures is over, and all of them are on the heap then. -/
theorem Grounded.mark_ends : ∃ marked, Marked t ps [] marked ∧
    ∃ n ≤ (ps.escapingPlans t).length * (t.scopes.size + 2) + 1,
      EndsIn markTurn n (ps, none, ps.escapingPlans t) (.ok marked) := by
  have hstart : MarkState t ps (ps, none, ps.escapingPlans t) :=
    ⟨.start t ps, fun p hp => (by cases hp), fun p hp =>
      Graph.mem_reachable_of_mem (List.mem_append_left _ hp)⟩
  obtain ⟨n, hn, r, hends⟩ := EndsIn.exists_of_measure (MarkState t ps) (ps.markLeft t)
    (fun st next h hturn => h.turn hg hp hesc hturn) _ hstart
  obtain ⟨⟨ps', cur, rest⟩, hlast, hturn⟩ := hends.exists_last (MarkState t ps)
    (fun st next h hturn => (h.turn hg hp hesc hturn).1) hstart
  cases cur with
  | some p => cases r <;> cases hturn
  | none =>
    cases rest with
    | cons d rest => cases r <;> cases hturn
    | nil =>
      cases r with
      | error e => cases hturn
      | ok marked =>
        cases hturn
        exact ⟨ps', hlast.marked, n, by simpa [markLeft] using hn, hends⟩

/-! ## Sweeps -/

/-- The plans that are not on the heap. -/
def offHeap (ps : PlanTable) : Finset PlanId :=
  (Finset.range ps.plans.size).filter fun p => ps.isOnHeap p = false

/-- How many changes there may be from a table on, with the one that is noted. -/
def sweepLeft (st : PlanTable × Bool) : Nat :=
  st.1.offHeap.card + if st.2 then 1 else 0

/-- What is left out for a plan belongs on the heap, and when it is put there less is off it. -/
theorem Marked.leftOut (h : Marked t ps [] ps') {p q : PlanId}
    (hq : ps'.leftOut? p = some q) : Marked t ps [] (ps'.setReference q) ∧
      (ps'.setReference q).offHeap.card < ps'.offHeap.card := by
  obtain ⟨hheap, hparent, hno⟩ := leftOut?_eq_some.mp hq
  rw [h.parent?] at hparent
  have hlt := hg.nearest_lt_size hp (hg.parent p q hparent)
  have hmem : p ∈ ps.heapPlans t := by
    obtain ⟨m, rfl, hm, -⟩ := h
    obtain ⟨-, hpm | hpm⟩ := (onHeap_onHeapToo hg.plan_id).mp hheap
    · exact hm p hpm
    · exact mem_heapPlans_of_onHeap hg.plan_id hpm
  refine ⟨h.setReference hg (hg.mem_heapPlans_of_parent hp hesc hmem hparent) fun r hr =>
    absurd hr List.not_mem_nil, Finset.card_lt_card ?_⟩
  obtain ⟨m, rfl, -⟩ := h
  rw [hg.setReference_onHeapToo]
  have hiff (m : List PlanId) (r : PlanId) : r ∈ (ps.onHeapToo m).offHeap ↔
      r < ps.plans.size ∧ ¬ (r ∈ m ∨ ps.OnHeap r) := by
    rw [offHeap, Finset.mem_filter, Finset.mem_range, (alike_onHeapToo ps m).size, ← Bool.not_eq_true,
      isOnHeap_iff, onHeap_onHeapToo hg.plan_id]
    exact and_congr_right fun hr => by simp [hr]
  -- The plan that was left out is off the heap before and not after.
  refine (Finset.ssubset_iff_of_subset fun r hr => ?_).mpr ⟨q, ?_, ?_⟩
  · obtain ⟨hr, hno⟩ := (hiff _ r).mp hr
    exact (hiff _ r).mpr ⟨hr, fun h => hno (h.imp_left (List.mem_cons_of_mem _))⟩
  · exact (hiff _ q).mpr ⟨hlt, fun h => hno ((onHeap_onHeapToo hg.plan_id).mpr ⟨hlt, h⟩)⟩
  · exact fun h => ((hiff _ q).mp h).2 (.inl List.mem_cons_self)

/-- A sweep puts only what belongs there on the heap, and a change leaves fewer to come. -/
theorem Marked.foldl_sweepStep (l : List PlanId) (st : PlanTable × Bool)
    (h : Marked t ps [] st.1) :
    Marked t ps [] (l.foldl sweepStep st).1 ∧ sweepLeft (l.foldl sweepStep st) ≤ sweepLeft st := by
  induction l generalizing st with
  | nil => exact ⟨h, Nat.le_refl _⟩
  | cons p l ih =>
    rw [List.foldl_cons, sweepStep]
    split
    · next q hq =>
      obtain ⟨hmarked, hlt⟩ := h.leftOut hg hp hesc hq
      obtain ⟨hrest, hle⟩ := ih (st.1.setReference q, true) hmarked
      refine ⟨hrest, Nat.le_trans hle ?_⟩
      simp only [sweepLeft, if_true]
      omega
    · exact ih st h

/-- A sweep that goes on leaves less off the heap, and only what belongs there is on it. -/
theorem Marked.sweepTurn {next : PlanTable} (h : Marked t ps [] ps')
    (hturn : sweepTurn ps' = .ok (.inl next)) :
    Marked t ps [] next ∧ next.offHeap.card < ps'.offHeap.card := by
  obtain ⟨hmarked, hle⟩ := Marked.foldl_sweepStep hg hp hesc (List.range ps'.plans.size)
    (ps', false) h
  rw [foldl_of_sweepTurn hturn] at hmarked hle
  exact ⟨hmarked, Nat.lt_of_succ_le (by simpa [sweepLeft] using hle)⟩

/-- Sweeps are over, no later than in one more than there are plans, and what is within reach is on
the heap then. -/
theorem Marked.sweep_ends (h : Marked t ps [] ps') : ∃ n ≤ ps.plans.size + 1,
    EndsIn PlanTable.sweepTurn n ps' (.ok (ps.assignRepresentations t)) := by
  obtain ⟨n, hn, r, hends⟩ := EndsIn.exists_of_measure (Marked t ps []) (fun ps => ps.offHeap.card)
    (fun now next h hturn => h.sweepTurn hg hp hesc hturn) ps' h
  obtain ⟨last, hlast, hturn⟩ := hends.exists_last (Marked t ps [])
    (fun now next h hturn => (h.sweepTurn hg hp hesc hturn).1) h
  obtain ⟨rfl, hclosed⟩ := closed_of_sweepTurn hturn
  have hcard : ps'.offHeap.card ≤ ps.plans.size := by
    have hfilter := Finset.card_filter_le (Finset.range ps'.plans.size) fun p => ps'.isOnHeap p = false
    rw [Finset.card_range] at hfilter
    obtain ⟨m, rfl, -⟩ := h
    exact (alike_onHeapToo ps m).size ▸ hfilter
  rw [← hlast.eq_assignRepresentations hg hesc hclosed]
  exact ⟨n, by omega, hends⟩

end

end ClosureEnv.PlanTable
