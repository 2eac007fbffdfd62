import ClosureEnv.Proofs.Loops.Tables
import ClosureEnv.Proofs.Plan.Rounds

/-!
# Rounds of linking in valid trees

In a valid tree a round may fail, as a closure may need a plan that is not around it. But a chain of
links always leads further up (`PlanTable.Grounded.chain_ends`), and the parent that a plan gets is
always the same, so that it is set once (`PlanTable.Grounded.set_once`) and stays. A round that goes
on sets a parent or notes a need, so there are no more rounds than there are plans and pairs of a
closure and a plan, and one (`PlanTable.Grounded.rounds_end`).
-/

namespace ClosureEnv.PlanTable

variable {t : ScopeTree} {ps next : PlanTable}

/-! ## The loops -/

/-- A turn of the loop that goes from a plan outwards until nothing is left of what a closure needs,
and gathers the links. -/
def chainTurn (t : ScopeTree) (ps : PlanTable) (c : ClosureId) :
    PlanId × List PlanId × List (PlanId × PlanId) →
      Lower (PlanId × List PlanId × List (PlanId × PlanId) ⊕ List (PlanId × PlanId))
  | (_, [], done) => return .inr done
  | (cur, left, done) => do
    match ← ps.nearestEnclosing t cur with
    | none => inconsistent (.planNotEnclosing c cur)
    | some p => return .inl (p, left.filter (· != p), done ++ [(cur, p)])

/-- A turn of the loop that links until nothing changes. -/
def roundTurn (t : ScopeTree) (ps : PlanTable) : Lower (PlanTable ⊕ PlanTable) := do
  let (next, changed) ← ps.linkRound t
  return if changed then .inl next else .inr next

/-! ## Chains -/

/-- While something is left a chain goes on at the next plan around. -/
theorem chainFrom_cons {c : ClosureId} {bound : Nat} {cur q : PlanId} {left : List PlanId} :
    ps.chainFrom t c (bound + 1) cur (q :: left) = (do
      match ← ps.nearestEnclosing t cur with
      | none => inconsistent (.planNotEnclosing c cur)
      | some p =>
        return (cur, p) :: (← ps.chainFrom t c bound p ((q :: left).filter (· != p)))) := rfl

/-- While something is left the loop goes on at the next plan around. -/
theorem chainTurn_cons {c : ClosureId} {cur q : PlanId} {left : List PlanId}
    {done : List (PlanId × PlanId)} :
    chainTurn t ps c (cur, q :: left, done) = (do
      match ← ps.nearestEnclosing t cur with
      | none => inconsistent (.planNotEnclosing c cur)
      | some p => return .inl (p, (q :: left).filter (· != p), done ++ [(cur, p)])) := rfl

/-- A chain leads to the next plan around in each turn, and gathers the link to it. -/
theorem chainTurn_eq_inl {c : ClosureId} {st next : PlanId × List PlanId × List (PlanId × PlanId)}
    (h : chainTurn t ps c st = .ok (.inl next)) :
    next.2.2 = st.2.2 ++ [(st.1, next.1)] ∧ ps.nearestEnclosing t st.1 = .ok (some next.1) := by
  obtain ⟨cur, left, done⟩ := st
  cases left with
  | nil => cases h
  | cons q left =>
    obtain ⟨r, hr, h⟩ := Lower.bind_eq_ok.mp h
    cases r with
    | none => cases h
    | some r =>
      cases h
      exact ⟨rfl, hr⟩

/-- The scopes of plans are below the number of scopes. -/
theorem Grounded.origin_le (hg : ps.Grounded t) (p : PlanId) :
    (ps.origin? p).getD 0 ≤ t.scopes.size := by
  cases ho : ps.origin? p with
  | none => exact Nat.zero_le _
  | some s =>
    obtain ⟨x, hx, hs⟩ := Option.bind_eq_some_iff.mp ho
    obtain ⟨-, o, ho, hlt⟩ := hg.plan p x hx
    cases hs.symm.trans ho
    exact Nat.le_of_lt hlt

/-- A chain of links is over. -/
theorem Grounded.chain_ends (hg : ps.Grounded t) (hp : Preorder t.scopes) (c : ClosureId)
    (cur : PlanId) (left : List PlanId) : ∃ n ≤ t.scopes.size + 1,
      EndsIn (chainTurn t ps c) n (cur, left, [])
        (ps.chainFrom t c (t.scopes.size + 1) cur left) := by
  have hsize := hg.origin_le cur
  -- Each turn goes on from a plan of a scope further out.
  obtain ⟨n, hn, hends⟩ := EndsIn.of_measure (chainTurn t ps c) (fun _ => True)
    (fun st => (ps.origin? st.1).getD 0)
    (f := fun b st => (st.2.2 ++ ·) <$> ps.chainFrom t c b st.1 st.2.1)
    (b := t.scopes.size + 1) (s := (cur, left, []))
    (by
      rintro b ⟨cur, left, done⟩ -
      cases left with
      | nil =>
        simp only [chainFrom, map_pure, List.append_nil]
        rfl
      | cons q left =>
        dsimp only
        rw [chainFrom_cons, chainTurn_cons, map_bind, bind_assoc]
        refine congrArg _ (funext fun r => ?_)
        cases r with
        | none => rfl
        | some p =>
          simp only [map_bind, map_pure]
          rw [pure_bind, Sum.elim_inl, ← bind_pure_comp]
          simp)
    (by
      rintro ⟨cur, left, done⟩ ⟨p, rest, more⟩ - ht
      obtain ⟨s, o, hs, ho, hlt⟩ := hg.nearest_lt hp (chainTurn_eq_inl ht).2
      refine ⟨trivial, ?_⟩
      dsimp only
      rw [hs.origin?, ho.origin?]
      exact hlt)
    trivial (Nat.lt_succ_of_le hsize)
  refine ⟨n, Nat.le_trans hn (Nat.succ_le_succ hsize), ?_⟩
  have hchain : (([] : List (PlanId × PlanId)) ++ ·) <$>
      ps.chainFrom t c (t.scopes.size + 1) cur left =
        ps.chainFrom t c (t.scopes.size + 1) cur left := by
    simp
  exact hchain ▸ hends

/-- The links of a chain lead to the next plans around. -/
theorem nearest_of_mem_chainFrom {c : ClosureId} {bound : Nat} {cur : PlanId} {left : List PlanId}
    {ls : List (PlanId × PlanId)} (h : ps.chainFrom t c bound cur left = .ok ls)
    {l : PlanId × PlanId} (hl : l ∈ ls) : ps.nearestEnclosing t l.1 = .ok (some l.2) := by
  induction bound generalizing cur left ls with
  | zero =>
    cases left with
    | nil =>
      cases h
      cases hl
    | cons q left => cases h
  | succ bound ih =>
    cases left with
    | nil =>
      cases h
      cases hl
    | cons q left =>
      obtain ⟨r, hr, h⟩ := Lower.bind_eq_ok.mp h
      cases r with
      | none => cases h
      | some p =>
        obtain ⟨rest, hrest, h⟩ := Lower.bind_eq_ok.mp h
        cases h
        rcases List.mem_cons.mp hl with rfl | hl
        · exact hr
        · exact ih hrest hl

/-- The links that closures call for lead to the next plans around. -/
theorem nearest_of_mem_links {links : List (List (PlanId × PlanId))}
    (h : t.closures.toList.mapM (fun c => ps.linksFor t c.id) = .ok links) {l : PlanId × PlanId}
    (hl : l ∈ links.flatten) : ps.nearestEnclosing t l.1 = .ok (some l.2) := by
  obtain ⟨ls, hls, hl⟩ := List.mem_flatten.mp hl
  obtain ⟨c, -, hc⟩ := Lower.mem_of_mapM h hls
  obtain ⟨d, -, hc⟩ := Lower.bind_eq_ok.mp hc
  cases d with
  | none =>
    cases hc
    cases hl
  | some d => exact nearest_of_mem_chainFrom hc hl

/-! ## One round -/

/-- After some links to next plans around, parents are still such. -/
theorem Grounded.nearest_of_foldl_link (hg : ps.Grounded t) {links : List (PlanId × PlanId)}
    (hlinks : ∀ l ∈ links, ps.nearestEnclosing t l.1 = .ok (some l.2)) {p q : PlanId}
    (h : (links.foldl link ps).parent? p = some q) : ps.nearestEnclosing t p = .ok (some q) := by
  obtain ⟨halike, -, -, hafter⟩ := PlanTable.foldl_link links ps
  have hlt : p < ps.plans.size := by
    obtain ⟨x, hx, -⟩ := Option.bind_eq_some_iff.mp h
    rw [← halike.size]
    exact (Array.getElem?_eq_some_iff.mp hx).1
  rw [hafter p hlt] at h
  rcases parentAfter_eq_some h with hold | hmem
  · exact hg.parent p q hold
  · exact hlinks _ hmem

/-- A plan that has a next one around exists. -/
theorem lt_size_of_nearest {p q : PlanId} (h : ps.nearestEnclosing t p = .ok (some q)) :
    p < ps.plans.size := by
  obtain ⟨x, hx, -⟩ := Lower.bind_eq_ok.mp h
  exact (Array.getElem?_eq_some_iff.mp (plan_eq_ok.mp hx)).1

/-- A plan that had a parent, or got one, has the next plan around as its parent. -/
theorem Grounded.parent_foldl_link (hg : ps.Grounded t) {links : List (PlanId × PlanId)}
    (hlinks : ∀ l ∈ links, ps.nearestEnclosing t l.1 = .ok (some l.2)) {p q : PlanId}
    (h : ps.parent? p = some q ∨ (p, q) ∈ links) : (links.foldl link ps).parent? p = some q := by
  have hnext : ps.nearestEnclosing t p = .ok (some q) := h.elim (hg.parent p q) fun h => hlinks _ h
  obtain ⟨-, -, -, hafter⟩ := PlanTable.foldl_link links ps
  obtain ⟨q', hq'⟩ := exists_parentAfter (o := ps.parent? p) (l := links) (p := p)
    (h.imp (fun h => ⟨q, h⟩) fun h => ⟨q, h⟩)
  have hparent := (hafter p (lt_size_of_nearest hnext)).trans hq'
  cases (hg.nearest_of_foldl_link hlinks hparent).symm.trans hnext
  exact hparent

/-- After links to next plans around, a plan that is to get one has no parent, or that one. -/
theorem Grounded.set_once (hg : ps.Grounded t) {before : List (PlanId × PlanId)}
    {l : PlanId × PlanId}
    (hlinks : ∀ l' ∈ l :: before, ps.nearestEnclosing t l'.1 = .ok (some l'.2)) :
    (before.foldl link ps).parent? l.1 = none ∨ (before.foldl link ps).parent? l.1 = some l.2 := by
  obtain ⟨hl, hbefore⟩ := List.forall_mem_cons.mp hlinks
  cases hparent : (before.foldl link ps).parent? l.1 with
  | none => exact .inl rfl
  | some q =>
    cases (hg.nearest_of_foldl_link hbefore hparent).symm.trans hl
    exact .inr rfl

/-- What a closure carries for the parent of a plan is that parent. -/
theorem of_mem_carriedForParent {x : Plan} {ns : List (ClosureId × PlanId)}
    (h : ps.carriedForParent t x = .ok ns) {n : ClosureId × PlanId} (hn : n ∈ ns) :
    x.parent = some n.2 ∧ n.1 ∈ t.closureIds := by
  unfold carriedForParent at h
  split at h
  · next s parent outer _ hparent _ =>
    obtain ⟨cs, hcs, h⟩ := Lower.bind_eq_ok.mp h
    cases h
    obtain ⟨c, hc, rfl⟩ := List.mem_map.mp hn
    exact ⟨hparent, ScopeTree.closuresFrom_subset hcs (fun c hc => absurd hc List.not_mem_nil) c hc⟩
  · cases h
    cases hn

/-- What a closure carries for another is needed by that one. -/
theorem of_mem_carriedForClosure {k : Closure} {ns : List (ClosureId × PlanId)}
    (h : ps.carriedForClosure t k = .ok ns) {n : ClosureId × PlanId} (hn : n ∈ ns) :
    n.2 ∈ ps.neededBy k.id ∧ n.1 ∈ t.closureIds := by
  obtain ⟨all, hall, h⟩ := Lower.bind_eq_ok.mp h
  cases h
  obtain ⟨ns', hns', hn⟩ := List.mem_flatten.mp hn
  obtain ⟨p, hp, hpn⟩ := Lower.mem_of_mapM hall hns'
  cases ho : ps.origin? p with
  | none =>
    rw [ho] at hpn
    cases hpn
    cases hn
  | some outer =>
    rw [ho] at hpn
    obtain ⟨cs, hcs, hpn⟩ := Lower.bind_eq_ok.mp hpn
    cases hpn
    obtain ⟨c, hc, rfl⟩ := List.mem_map.mp hn
    exact ⟨hp, ScopeTree.closuresFrom_subset hcs (fun c hc => absurd hc List.not_mem_nil) c hc⟩

/-- With links to next plans around, a table is still such. -/
theorem Grounded.foldl_link (hg : ps.Grounded t) {links : List (PlanId × PlanId)}
    (hlinks : ∀ l ∈ links, ps.nearestEnclosing t l.1 = .ok (some l.2)) :
    (links.foldl link ps).Grounded t := by
  obtain ⟨halike, hneeded, -⟩ := PlanTable.foldl_link links ps
  refine hg.of_alike halike.toAlike (fun p q => hg.nearest_of_foldl_link hlinks) fun c p hp => ?_
  rw [neededBy, hneeded] at hp
  exact hg.needed c p hp

/-- What closures have to carry is there. -/
theorem Grounded.carried (hg : ps.Grounded t) (hp : Preorder t.scopes)
    {forParents forClosures : List (List (ClosureId × PlanId))}
    (hparents : ps.plans.toList.mapM (ps.carriedForParent t) = .ok forParents)
    (hclosures : t.closures.toList.mapM (ps.carriedForClosure t) = .ok forClosures) :
    ∀ n ∈ forParents.flatten ++ forClosures.flatten, n.2 < ps.plans.size ∧ n.1 ∈ t.closureIds := by
  intro n hn
  rcases List.mem_append.mp hn with hn | hn
  · obtain ⟨ns, hns, hn⟩ := List.mem_flatten.mp hn
    obtain ⟨x, hx, hxn⟩ := Lower.mem_of_mapM hparents hns
    obtain ⟨hparent, hid⟩ := of_mem_carriedForParent hxn hn
    obtain ⟨p, hpx⟩ := List.mem_iff_getElem?.mp hx
    rw [Array.getElem?_toList] at hpx
    have hpn : ps.parent? p = some n.2 := by simp [parent?, hpx, hparent]
    exact ⟨hg.nearest_lt_size hp (hg.parent p n.2 hpn), hid⟩
  · obtain ⟨ns, hns, hn⟩ := List.mem_flatten.mp hn
    obtain ⟨k, -, hkn⟩ := Lower.mem_of_mapM hclosures hns
    obtain ⟨hpk, hid⟩ := of_mem_carriedForClosure hkn hn
    exact ⟨(hg.needed k.id n.2 hpk).1, hid⟩

/-- With notes of needs for plans that are there, a table is still such. -/
theorem Grounded.foldl_need (hg : ps.Grounded t) {needs : List (ClosureId × PlanId)}
    (hneeds : ∀ n ∈ needs, n.2 < ps.plans.size ∧ n.1 ∈ t.closureIds) :
    (needs.foldl need ps).Grounded t := by
  obtain ⟨hplans, -, -, -, hmem⟩ := PlanTable.foldl_need needs ps
  refine hg.of_alike (aligned_foldl_need needs ps).1.toAlike (fun p q hpq => ?_) fun c p hpc => ?_
  · rw [parent?, hplans] at hpq
    exact hg.parent p q hpq
  · rcases (hmem c p).mp hpc with hpc | hpc
    · exact hg.needed c p hpc
    · exact hneeds _ hpc

/-- What a round does in a valid tree. -/
structure Advance (t : ScopeTree) (ps next : PlanTable) (changed : Bool) : Prop where
  grounded : next.Grounded t
  alike : Alike ps next
  bindings : next.bindings = ps.bindings
  /-- Parents stay. -/
  parent : ∀ p q, ps.parent? p = some q → next.parent? p = some q
  /-- Needs stay. -/
  needed : ∀ c p, p ∈ ps.neededBy c → p ∈ next.neededBy c
  /-- A change is a new parent or a new need. -/
  change : changed = true →
    (∃ p q, p < ps.plans.size ∧ ps.parent? p = none ∧ next.parent? p = some q) ∨
    ∃ c p, c ∈ t.closureIds ∧ p < ps.plans.size ∧ p ∉ ps.neededBy c ∧ p ∈ next.neededBy c

/-- A round that is done sets next plans around as parents, and notes needs for them. -/
theorem Grounded.advance (hg : ps.Grounded t) (hp : Preorder t.scopes) {changed : Bool}
    (h : ps.linkRound t = .ok (next, changed)) : Advance t ps next changed := by
  obtain ⟨links, forParents, forClosures, hlinks, hparents, hclosures, rfl, rfl⟩ :=
    linkRound_eq_ok.mp h
  have hnear (l : PlanId × PlanId) (hl : l ∈ links.flatten) :
      ps.nearestEnclosing t l.1 = .ok (some l.2) := nearest_of_mem_links hlinks hl
  obtain ⟨halike, hneeded, hbindings, -⟩ := PlanTable.foldl_link links.flatten ps
  have hset {p q : PlanId} (h : ps.parent? p = some q ∨ (p, q) ∈ links.flatten) :=
    hg.parent_foldl_link hnear h
  have hlinked := hg.foldl_link hnear
  generalize links.flatten.foldl link ps = linked at *
  have hneeds := hlinked.carried hp hparents hclosures
  generalize forParents.flatten ++ forClosures.flatten = needs at *
  obtain ⟨hplans, -, -, hbindings', hmem⟩ := PlanTable.foldl_need needs linked
  have hparent (p : PlanId) : (needs.foldl need linked).parent? p = linked.parent? p := by
    rw [parent?, parent?, hplans]
  have hneededBy (c : ClosureId) : linked.neededBy c = ps.neededBy c := by
    rw [neededBy, neededBy, hneeded]
  refine ⟨hlinked.foldl_need hneeds, (halike.trans (aligned_foldl_need needs linked).1).toAlike,
    hbindings'.trans hbindings, fun p q hpq => (hparent p).trans (hset (.inl hpq)),
    fun c p hpc => (hmem c p).mpr (.inl (hneededBy c ▸ hpc)), fun hchanged => ?_⟩
  rcases changed_iff.mp hchanged with ⟨l, hl, hno⟩ | ⟨n, hn, hno⟩
  · refine .inl ⟨l.1, l.2, lt_size_of_nearest (hnear l hl), ?_, (hparent _).trans (hset (.inr hl))⟩
    cases hq : ps.parent? l.1 with
    | none => rfl
    | some q =>
      cases (hg.parent _ _ hq).symm.trans (hnear l hl)
      exact absurd hq hno
  · obtain ⟨hlt, hid⟩ := hneeds n hn
    refine .inr ⟨n.1, n.2, hid, halike.size ▸ hlt, ?_, (hmem _ _).mpr (.inr hn)⟩
    rwa [← hneededBy]

/-! ## All rounds -/

/-- The bound on the rounds is above what there may still be. -/
theorem remaining_lt_roundBound : ps.remaining t.closureIds < ps.roundBound t := by
  have hids : t.closureIds.card ≤ t.scopes.size + t.closures.size := by
    have hcard := List.toFinset_card_le
      (l := t.closures.toList.map Closure.id ++ t.scopes.toList.filterMap Scope.closure)
    have hfilter := List.length_filterMap_le Scope.closure t.scopes.toList
    rw [List.length_append, List.length_map] at hcard
    simp only [Array.length_toList] at hcard hfilter
    unfold ScopeTree.closureIds
    omega
  have hmul := Nat.mul_le_mul_right ps.plans.size hids
  have hle := remaining_le t.closureIds ps
  unfold roundBound
  dsimp only
  omega

/-- A round with a change leaves less. -/
theorem Advance.remaining_lt (h : Advance t ps next true) :
    next.remaining t.closureIds < ps.remaining t.closureIds :=
  PlanTable.remaining_lt h.alike.size h.parent h.needed (h.change rfl)

/-- Linking is over after as many rounds as there are plans and pairs of a closure and a plan, and
one. -/
theorem Grounded.rounds_end (hg : ps.Grounded t) (hp : Preorder t.scopes) :
    ∃ n ≤ ps.plans.size + t.closureIds.card * ps.plans.size + 1,
      EndsIn (roundTurn t) n ps (linkRounds t (ps.roundBound t) ps) := by
  obtain ⟨n, hn, hends⟩ := EndsIn.of_measure (roundTurn t) (Grounded t) (remaining t.closureIds)
    (f := linkRounds t)
    (fun b ps _ => by
      rw [linkRounds, roundTurn, bind_assoc]
      refine congrArg _ (funext fun r => ?_)
      obtain ⟨next, changed⟩ := r
      cases changed <;> rfl)
    (fun ps next hg ht => by
      obtain ⟨⟨mid, changed⟩, hround, ht⟩ := Lower.bind_eq_ok.mp ht
      cases changed with
      | false => cases ht
      | true =>
        cases ht
        have hadvance := hg.advance hp hround
        exact ⟨hadvance.grounded, hadvance.remaining_lt⟩)
    hg remaining_lt_roundBound
  exact ⟨n, Nat.le_trans hn (Nat.succ_le_succ (remaining_le _ _)), hends⟩

end ClosureEnv.PlanTable
