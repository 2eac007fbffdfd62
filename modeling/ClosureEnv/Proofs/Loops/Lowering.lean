import ClosureEnv.Proofs.Loops.Marking
import ClosureEnv.Proofs.Plan.Merged

/-!
# Lowering ends

Nothing is taken for granted of a scope tree here, so its parents may lead back to where they began.
Such a tree is turned down before anything goes up in it. In a valid tree the loops of lowering end,
whatever closures capture. Linking sets a parent once, and takes as many rounds at most as there are
plans and pairs of a closure and a plan, and one (`PlanTable.LinkingEnds`, `lowering_ends`).
-/

namespace ClosureEnv

namespace PlanTable

variable {t : ScopeTree} {ps next start linked : PlanTable}

/-- A table after a round of linking. -/
def RoundTo (t : ScopeTree) (ps next : PlanTable) : Prop :=
  ∃ changed, ps.linkRound t = .ok (next, changed)

/-- How linking, and what comes after it, ends for a table of plans. -/
structure LinkingEnds (t : ScopeTree) (start : PlanTable) : Prop where
  /-- There are no parents to begin with. -/
  orphan : ∀ p, start.parent? p = none
  /-- Chains of links end. -/
  chain : ∀ ps, Relation.ReflTransGen (RoundTo t) start ps → ∀ c cur left,
    ∃ n ≤ t.scopes.size + 1, EndsIn (chainTurn t ps c) n (cur, left, [])
      (ps.chainFrom t c (t.scopes.size + 1) cur left)
  /-- A turn of a chain, even of one that fails later, links a plan to the next one around. -/
  turn : ∀ ps, Relation.ReflTransGen (RoundTo t) start ps → ∀ c st st',
    chainTurn t ps c st = .ok (.inl st') → ∃ l, st'.2.2 = st.2.2 ++ [l] ∧
      ps.nearestEnclosing t l.1 = .ok (some l.2)
  /-- So do all the links of a round. -/
  links : ∀ ps, Relation.ReflTransGen (RoundTo t) start ps → ∀ links,
    t.closures.toList.mapM (fun c => ps.linksFor t c.id) = .ok links →
      ∀ l ∈ links.flatten, ps.nearestEnclosing t l.1 = .ok (some l.2)
  /-- After some of these links are made, one more finds no parent, or the one that it would set. -/
  once : ∀ ps, Relation.ReflTransGen (RoundTo t) start ps → ∀ before l,
    (∀ l' ∈ l :: before, ps.nearestEnclosing t l'.1 = .ok (some l'.2)) →
      (before.foldl link ps).parent? l.1 = none ∨ (before.foldl link ps).parent? l.1 = some l.2
  /-- Parents stay. -/
  kept : ∀ ps next, Relation.ReflTransGen (RoundTo t) start ps → RoundTo t ps next →
    ∀ p q, ps.parent? p = some q → next.parent? p = some q
  /-- Rounds end. -/
  rounds : ∃ n ≤ start.plans.size + t.closureIds.card * start.plans.size + 1,
    EndsIn (roundTurn t) n start (linkRounds t (start.roundBound t) start)
  /-- Then what belongs on the heap is put there: first along parents, and then in sweeps. -/
  marking : ∀ linked, start.linkParents t = .ok linked → ∃ marked,
    (∃ n ≤ (linked.escapingPlans t).length * (t.scopes.size + 2) + 1,
      EndsIn markTurn n (linked, none, linked.escapingPlans t) (.ok marked)) ∧
    ∃ n ≤ linked.plans.size + 1,
      EndsIn sweepTurn n marked (.ok (linked.assignRepresentations t))

/-- The innermost of some plans is one of them. -/
theorem mem_of_innermost {plans : List PlanId} {d : PlanId}
    (h : ps.innermost t plans = .ok (some d)) : d ∈ plans := by
  obtain ⟨keyed, hkeyed, h⟩ := Lower.bind_eq_ok.mp h
  obtain ⟨k, hk, rfl⟩ := Option.map_eq_some_iff.mp (Except.ok.inj h)
  have hmem : k ∈ keyed := by
    cases keyed with
    | nil => cases hk
    | cons b keyed =>
      obtain ⟨r, hr, hmem, -⟩ := foldl_better keyed b
      cases hk.symm.trans hr
      exact hmem
  obtain ⟨p, hp, hpk⟩ := Lower.mem_of_mapM hkeyed hmem
  obtain ⟨key, -, hpk⟩ := Lower.bind_eq_ok.mp hpk
  cases hpk
  exact hp

/-- Rounds keep what holds in valid trees. -/
theorem Grounded.linkRounds (hg : ps.Grounded t) (hp : Preorder t.scopes) {bound : Nat}
    (h : linkRounds t bound ps = .ok next) : next.Grounded t ∧ next.bindings = ps.bindings := by
  induction bound generalizing ps with
  | zero =>
    cases h
    exact ⟨hg, rfl⟩
  | succ bound ih =>
    rw [PlanTable.linkRounds] at h
    obtain ⟨⟨mid, changed⟩, hround, h⟩ := Lower.bind_eq_ok.mp h
    have hadvance := hg.advance hp hround
    cases changed with
    | false =>
      cases h
      exact ⟨hadvance.grounded, hadvance.bindings⟩
    | true =>
      obtain ⟨hnext, hbindings⟩ := ih hadvance.grounded h
      exact ⟨hnext, hbindings.trans hadvance.bindings⟩

/-- After linking, closures are bound to plans that are there. -/
theorem Grounded.linkParents (hg : start.Grounded t) (hp : Preorder t.scopes)
    (hb : start.bindings = []) (h : start.linkParents t = .ok linked) :
    linked.Grounded t ∧ ∀ p ∈ linked.escapingPlans t, p < linked.plans.size := by
  obtain ⟨mid, hmid, h⟩ := Lower.bind_eq_ok.mp h
  obtain ⟨hg, hbindings⟩ := hg.linkRounds hp hmid
  rw [hb] at hbindings
  -- Binding the closures leaves the plans alone: every plan bound to is one that its closure needs.
  obtain ⟨bindings, rfl, hdirect⟩ : ∃ bindings, linked = { mid with bindings } ∧
      ∀ c p, bindings.find? c = some (.direct p) → p < mid.plans.size := by
    refine Lower.foldlM_inv (fun ps => ∃ bindings, ps = { mid with bindings } ∧
      ∀ c p, bindings.find? c = some (.direct p) → p < mid.plans.size) h
      ⟨mid.bindings, rfl, fun c p hc => by rw [hbindings] at hc; cases hc⟩ ?_
    rintro k - _ ps' ⟨bindings, rfl, hdirect⟩ hrun
    unfold bindDirect at hrun
    obtain ⟨r, hr, hrun⟩ := Lower.bind_eq_ok.mp hrun
    cases r with
    | none =>
      cases hrun
      exact ⟨bindings, rfl, hdirect⟩
    | some d =>
      cases hrun
      refine ⟨_, rfl, fun c p hc => ?_⟩
      by_cases hck : c = k.id
      · subst hck
        rw [SortedMap.find?_insert_self] at hc
        cases hc
        exact (hg.needed k.id d (mem_of_innermost hr)).1
      · rw [SortedMap.find?_insert_of_ne hck] at hc
        exact hdirect c p hc
  have halike : Alike mid { mid with bindings } :=
    (Aligned.of_plans rfl rfl rfl : Aligned mid { mid with bindings }).toAlike
  refine ⟨hg.of_alike halike hg.parent hg.needed, fun p hmem => ?_⟩
  obtain ⟨c, -, hc⟩ := List.mem_filterMap.mp hmem
  unfold escapingPlan? at hc
  split at hc
  · next hc' =>
    cases hc
    exact hdirect _ _ hc'
  · cases hc

/-- In a valid tree linking ends. -/
theorem linkingEnds (h : t.validate = .ok ()) {a : Captures} {merge : MergePolicy}
    (hstart : unlinked t a merge = .ok start) : start.LinkingEnds t := by
  obtain ⟨hp, -⟩ := ScopeTree.of_validate h
  obtain ⟨hg, horphan, hbindings⟩ := grounded_of_unlinked h hstart
  -- Every state of the rounds is grounded, by induction on the rounds so far.
  have hreached (ps : PlanTable) (hps : Relation.ReflTransGen (RoundTo t) start ps) :
      ps.Grounded t := by
    induction hps with
    | refl => exact hg
    | tail _ hround ih =>
      obtain ⟨changed, hround⟩ := hround
      exact (ih.advance hp hround).grounded
  constructor
  · exact horphan
  · exact fun ps hps c cur left => (hreached ps hps).chain_ends hp c cur left
  · exact fun ps _ c st st' hturn => ⟨_, chainTurn_eq_inl hturn⟩
  · exact fun ps _ links hlinks l hl => nearest_of_mem_links hlinks hl
  · exact fun ps hps before l hlinks => (hreached ps hps).set_once hlinks
  · rintro ps next hps ⟨changed, hround⟩ p q hpq
    exact ((hreached ps hps).advance hp hround).parent p q hpq
  · exact hg.rounds_end hp
  · intro linked hlinked
    obtain ⟨hlinkedGrounded, hesc⟩ := hg.linkParents hp hbindings hlinked
    obtain ⟨marked, hmarked, hmark⟩ := hlinkedGrounded.mark_ends hp hesc
    exact ⟨marked, hmark, hmarked.sweep_ends hlinkedGrounded hp hesc⟩

end PlanTable

/-- A tree is turned down by the checks of its scopes, which go up nowhere, or parents never lead
back to a scope and all ways up end. If the tree is valid, linking ends as well, whatever closures
capture and whether environments are merged or not, and then what belongs on the heap is put
there. -/
theorem lowering_ends (t : ScopeTree) :
    ((∃ e, t.checkScopes = .error e ∧ t.validate = .error e) ∨
      t.checkScopes = .ok () ∧
        (∀ s, ¬ Relation.TransGen (fun s p => parentIn? t.scopes s = some p) s s) ∧ t.WalksEnd) ∧
    (t.validate = .ok () → t.WalksEnd ∧ ∀ a merge start,
      PlanTable.unlinked t a merge = .ok start → start.LinkingEnds t) := by
  constructor
  · rcases t.validate_scopes_first with hfail | ⟨hok, hp⟩
    · exact .inl hfail
    · exact .inr ⟨hok, ScopeTree.not_cycle hp, ScopeTree.walksEnd hp⟩
  · intro h
    obtain ⟨hp, -⟩ := ScopeTree.of_validate h
    exact ⟨ScopeTree.walksEnd hp, fun a merge start hstart => PlanTable.linkingEnds h hstart⟩

/-- So it is for a source of which linking sets parents. -/
theorem lowering_ends_overlapSource : ∃ t a start next,
    bindModule Syntax.overlapSource "u" = .ok t ∧ t.validate = .ok () ∧
      Captures.analyze t = .ok a ∧ PlanTable.unlinked t a .never = .ok start ∧
      start.linkRound t = .ok (next, true) ∧ t.WalksEnd ∧ start.LinkingEnds t := by
  have hsome : ((bindModule Syntax.overlapSource "u").toOption.bind fun t =>
      (Captures.analyze t).toOption.bind fun a =>
        (PlanTable.unlinked t a .never).toOption.bind fun start =>
          (start.linkRound t).toOption.map Prod.snd) = some true := by
    decide +kernel
  obtain ⟨t, ht, hsome⟩ := Option.bind_eq_some_iff.mp hsome
  obtain ⟨a, ha, hsome⟩ := Option.bind_eq_some_iff.mp hsome
  obtain ⟨start, hstart, hsome⟩ := Option.bind_eq_some_iff.mp hsome
  obtain ⟨⟨next, changed⟩, hround, rfl⟩ := Option.map_eq_some_iff.mp hsome
  rw [Lower.toOption_eq_some] at ht ha hstart hround
  obtain ⟨holds, h⟩ := wellBound_of_bindModule ht
  obtain ⟨-, hends⟩ := lowering_ends t
  obtain ⟨hwalks, hlinking⟩ := hends h.validate_ok
  exact ⟨t, a, start, next, ht, h.validate_ok, ha, hstart, hround, hwalks,
    hlinking a .never start hstart⟩

end ClosureEnv
