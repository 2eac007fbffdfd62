import ClosureEnv.Proofs.Plan.Linking
import Mathlib.Data.Finset.Prod

/-!
# Rounds of linking end

What is left to do is counted by the plans without a parent and the pairs of a closure and a plan
that it does not need. Every round with a change makes the count smaller, and the bound on the
rounds is above it, so the last round changes nothing (`linkRounds_spec`). Closures are then bound
to the innermost plan that they need (`linkParents_spec`).
-/

namespace ClosureEnv.PlanTable

variable {t : ScopeTree} {holds : VarId → ClosureId → Prop} {captured : VarId → Prop}
  {ps : PlanTable}

/-- The plans without a parent. -/
def orphans (ps : PlanTable) : Finset PlanId :=
  (Finset.range ps.plans.size).filter fun p => ps.parent? p = none

/-- The closures and the plans that they do not need. -/
def unneeded (t : ScopeTree) (ps : PlanTable) : Finset (ClosureId × PlanId) :=
  (Finset.range t.closures.size ×ˢ Finset.range ps.plans.size).filter fun n =>
    n.2 ∉ ps.neededBy n.1

/-- How much is left to do. -/
def left (t : ScopeTree) (ps : PlanTable) : Nat :=
  ps.orphans.card + (ps.unneeded t).card

/-- Some closures and the plans that they do not need. -/
def lacking (ids : Finset ClosureId) (ps : PlanTable) : Finset (ClosureId × PlanId) :=
  (ids ×ˢ Finset.range ps.plans.size).filter fun n => n.2 ∉ ps.neededBy n.1

/-- How many parents, and needs of some closures, there may still be. -/
def remaining (ids : Finset ClosureId) (ps : PlanTable) : Nat :=
  ps.orphans.card + (ps.lacking ids).card

/-- There may be as many as there are plans, and pairs of a closure and a plan. -/
theorem remaining_le (ids : Finset ClosureId) (ps : PlanTable) :
    ps.remaining ids ≤ ps.plans.size + ids.card * ps.plans.size := by
  have horphans := Finset.card_filter_le (Finset.range ps.plans.size) fun p => ps.parent? p = none
  have hlacking := Finset.card_filter_le (ids ×ˢ Finset.range ps.plans.size)
    fun n => n.2 ∉ ps.neededBy n.1
  rw [Finset.card_range] at horphans
  rw [Finset.card_product, Finset.card_range] at hlacking
  exact Nat.add_le_add horphans hlacking

/-- Where parents and needs stay, a new one leaves fewer. -/
theorem remaining_lt {ids : Finset ClosureId} {next : PlanTable}
    (hsize : next.plans.size = ps.plans.size)
    (hparent : ∀ p q, ps.parent? p = some q → next.parent? p = some q)
    (hneeded : ∀ c p, p ∈ ps.neededBy c → p ∈ next.neededBy c)
    (hchange : (∃ p q, p < ps.plans.size ∧ ps.parent? p = none ∧ next.parent? p = some q) ∨
      ∃ c p, c ∈ ids ∧ p < ps.plans.size ∧ p ∉ ps.neededBy c ∧ p ∈ next.neededBy c) :
    next.remaining ids < ps.remaining ids := by
  have horphans : next.orphans ⊆ ps.orphans := by
    intro p hp
    simp only [orphans, Finset.mem_filter, Finset.mem_range, hsize] at hp ⊢
    refine ⟨hp.1, ?_⟩
    cases hq : ps.parent? p with
    | none => rfl
    | some q =>
      rw [hparent p q hq] at hp
      cases hp.2
  have hlacking : next.lacking ids ⊆ ps.lacking ids := by
    intro n hn
    simp only [lacking, Finset.mem_filter, hsize] at hn ⊢
    exact ⟨hn.1, fun hmem => hn.2 (hneeded _ _ hmem)⟩
  unfold remaining
  rcases hchange with ⟨p, q, hlt, hp, hq⟩ | ⟨c, p, hc, hlt, hno, hyes⟩
  · refine Nat.add_lt_add_of_lt_of_le (Finset.card_lt_card ?_) (Finset.card_le_card hlacking)
    refine (Finset.ssubset_iff_of_subset horphans).mpr ⟨p, ?_, ?_⟩
    · simp [orphans, hp, hlt]
    · simp [orphans, hq]
  · refine Nat.add_lt_add_of_le_of_lt (Finset.card_le_card horphans) (Finset.card_lt_card ?_)
    refine (Finset.ssubset_iff_of_subset hlacking).mpr ⟨(c, p), ?_, ?_⟩
    · simp [lacking, hc, hlt, hno]
    · simp [lacking, hyes]

/-- What is left to do is what there may be for the closures by position. -/
theorem left_eq (t : ScopeTree) (ps : PlanTable) :
    ps.left t = ps.remaining (Finset.range t.closures.size) := rfl

/-- A round with a change leaves less to do. -/
theorem Round.left_lt {next : PlanTable} (h : Round t captured ps next true) :
    next.left t < ps.left t := by
  refine remaining_lt h.alike.size h.parent h.needed ?_
  rcases h.change rfl with ⟨p, q, hp, hq⟩ | ⟨c, p, hc, hrest⟩
  · obtain ⟨s, o, hps, -⟩ := h.linking.parent p q hq
    exact .inl ⟨p, q, (h.alike.from_iff.mp hps).lt_size, hp, hq⟩
  · exact .inr ⟨c, p, Finset.mem_range.mpr hc, hrest⟩

/-- The bound on the rounds is above what is left to do. -/
theorem left_lt_roundBound : ps.left t < ps.roundBound t := by
  have hle := remaining_le (Finset.range t.closures.size) ps
  have hmul : t.closures.size * ps.plans.size ≤
      (t.scopes.size + t.closures.size) * ps.plans.size :=
    Nat.mul_le_mul_right _ (Nat.le_add_left _ _)
  rw [Finset.card_range] at hle
  rw [left_eq]
  unfold roundBound
  dsimp only
  omega

/-- Rounds end with everything linked. -/
theorem linkRounds_spec (h : t.WellBound holds) (bound : Nat) :
    ∀ ps : PlanTable, ps.left t < bound → Linking t captured ps →
      ∃ next, linkRounds t bound ps = .ok next ∧ Linking t captured next ∧ Aligned ps next ∧
        next.bindings = ps.bindings ∧ Closed t next := by
  induction bound with
  | zero => exact fun ps hlt => absurd hlt (Nat.not_lt_zero _)
  | succ bound ih =>
    intro ps hlt hl
    obtain ⟨next, changed, hrun, hround⟩ := hl.linkRound_spec h
    rw [linkRounds, hrun, Lower.ok_bind]
    cases changed with
    | false =>
      exact ⟨next, rfl, hround.linking, hround.alike, hround.bindings, hround.closed rfl⟩
    | true =>
      obtain ⟨last, hlast, hll, ha, hb, hc⟩ :=
        ih next (by have := hround.left_lt; omega) hround.linking
      exact ⟨last, hlast, hll, hround.alike.trans ha, hb.trans hround.bindings, hc⟩

/-- What holds of a table once closures are bound to what they need. -/
structure Bound (t : ScopeTree) (captured : VarId → Prop) (ps : PlanTable) : Prop where
  /-- The table is linked. -/
  linking : Linking t captured ps
  /-- It is linked in full. -/
  closed : Closed t ps
  /-- A closure that is bound is bound to the innermost plan that it needs. -/
  direct : ∀ c b, ps.bindings.find? c = some b → ∃ d, b = .direct d ∧
    IsInnermost t ps (ps.neededBy c) d
  /-- A closure that needs something is bound. -/
  bound : ∀ c p, p ∈ ps.neededBy c → ∃ b, ps.bindings.find? c = some b

/-- Binding closures changes nothing else. -/
theorem Linking.of_bindings (hl : Linking t captured ps) (b : SortedMap ClosureId ClosureBinding) :
    Linking t captured { ps with bindings := b } := by
  have ha : Alike ps { ps with bindings := b } := ⟨rfl, rfl, fun _ => rfl⟩
  exact ⟨ha.placed hl.placed, fun p q hp => ha.nearest_iff.mpr (hl.parent p q hp),
    fun c p hp => hl.needed c p hp, fun c v p hn hv => hl.vars c v p hn hv,
    fun c p hp => hl.cause c p hp, fun p q hq => hl.spanned p q hq⟩

/-- The closures in `done` are bound to the innermost plans that they need, if they need any. -/
structure Directed (t : ScopeTree) (ps : PlanTable) (done : List Closure)
    (b : SortedMap ClosureId ClosureBinding) : Prop where
  /-- A binding is to the innermost plan. -/
  direct : ∀ c x, b.find? c = some x → ∃ d, x = .direct d ∧ IsInnermost t ps (ps.neededBy c) d
  /-- A closure that needs something is bound. -/
  bound : ∀ k ∈ done, ∀ p ∈ ps.neededBy k.id, ∃ x, b.find? k.id = some x

/-- One more closure is bound. -/
theorem Directed.bindDirect (hl : Linking t captured ps) (h : t.WellBound holds)
    {done : List Closure} {b : SortedMap ClosureId ClosureBinding} (hb : Directed t ps done b)
    {k : Closure} (hk : k ∈ t.closures.toList) :
    ∃ b', PlanTable.bindDirect t { ps with bindings := b } k = .ok { ps with bindings := b' } ∧
      Directed t ps (done ++ [k]) b' := by
  obtain ⟨c, hc, rfl⟩ := exists_of_mem_closures h hk
  obtain ⟨r, hr, hnone, hsome⟩ := (hl.of_bindings b).placed.innermost_spec h
    (l := ps.neededBy k.id) (i := k.scope) fun p hp => by
      obtain ⟨k', o, hk', ho, hok⟩ := hl.needed k.id p hp
      cases hc.symm.trans hk'
      exact ⟨o, ho, hok⟩
  unfold PlanTable.bindDirect
  rw [show neededBy { ps with bindings := b } k.id = ps.neededBy k.id from rfl, hr, Lower.ok_bind]
  cases r with
  | none =>
    refine ⟨b, rfl, hb.direct, fun k' hk' p hp => ?_⟩
    rcases List.mem_append.mp hk' with hk' | hk'
    · exact hb.bound k' hk' p hp
    · obtain rfl := List.mem_singleton.mp hk'
      rw [hnone rfl] at hp
      cases hp
  | some d =>
    refine ⟨b.insert k.id (.direct d), rfl, fun c x hx => ?_, fun k' hk' p hp => ?_⟩
    · by_cases hck : c = k.id
      · subst hck
        rw [SortedMap.find?_insert_self] at hx
        cases hx
        exact ⟨d, rfl, hsome d rfl⟩
      · rw [SortedMap.find?_insert_of_ne hck] at hx
        exact hb.direct c x hx
    · by_cases hkk : k'.id = k.id
      · exact ⟨_, by rw [hkk, SortedMap.find?_insert_self]⟩
      · rw [SortedMap.find?_insert_of_ne hkk]
        rcases List.mem_append.mp hk' with hk' | hk'
        · exact hb.bound k' hk' p hp
        · obtain rfl := List.mem_singleton.mp hk'
          exact absurd rfl hkk

/-- Linking succeeds, and binds the closures that need something. -/
theorem Linking.linkParents_spec (hl : Linking t captured ps) (h : t.WellBound holds)
    (hb : ps.bindings = []) :
    ∃ next, ps.linkParents t = .ok next ∧ Bound t captured next ∧ Aligned ps next := by
  obtain ⟨last, hlast, hll, ha, hlb, hclosed⟩ :=
    linkRounds_spec h (ps.roundBound t) ps left_lt_roundBound hl
  rw [hb] at hlb
  obtain ⟨_, hnext, b, rfl, hdirected⟩ := Lower.foldlM_ok (f := bindDirect t)
    (l := t.closures.toList) (b := last)
    (fun done next => ∃ b, next = { last with bindings := b } ∧ Directed t last done b)
    ⟨last.bindings, rfl, fun c x hx => (by rw [hlb] at hx; cases hx), fun k hk => (by cases hk)⟩
    (by
      rintro done k rest _ hsplit ⟨b, rfl, hdirected⟩
      obtain ⟨b', hrun, hdirected'⟩ := hdirected.bindDirect hll h
        (hsplit ▸ List.mem_append_right _ List.mem_cons_self)
      exact ⟨_, hrun, b', rfl, hdirected'⟩)
  refine ⟨_, Lower.bind_eq_ok.mpr ⟨last, hlast, hnext⟩,
    ⟨hll.of_bindings b, ?_, hdirected.direct, fun c p hp => ?_⟩, ha.trans (.of_plans rfl rfl rfl)⟩
  · exact ⟨hclosed.chain, hclosed.parents, hclosed.closures⟩
  · obtain ⟨k, o, hk, -, -⟩ := hll.needed c p hp
    obtain rfl := h.closure_id c k hk
    exact hdirected.bound k (Array.mem_toList_iff.mpr (Array.mem_of_getElem? hk)) p hp

end ClosureEnv.PlanTable
