import ClosureEnv.Proofs.Binding.Keys
import ClosureEnv.Proofs.Layout.Age

/-!
# Parents of live layouts

A layout that a unit produces has a parent that the unit produces as well. A layout that is carried
on keeps its parent, whatever has become of that: it is carried on as well or was taken over, or it
was superseded, and the carried layout still names it (`lowerChain_parents`,
`exists_carried_below_superseded`). It has not been retired: a parent is the layout of a scope
further out, which is there as long as the scopes inside of it are.
-/

namespace ClosureEnv

open Synthesis

/-! ## Identities of scopes around others -/

/-- An identity is that of a scope inside of the scope of another identity, as their keys tell. -/
inductive Inner : String → String → Prop where
  | scope (key rest : String) :
      Inner (EnvIdentity.scope (key ++ "/" ++ rest)).text (EnvIdentity.scope key).text

/-- No scope is inside of itself. -/
theorem Inner.ne {i j : String} (h : Inner i j) : j ≠ i := by
  cases h with
  | scope key rest =>
    intro heq
    have hkey := congrArg String.length (EnvIdentity.scope.inj (EnvIdentity.text_inj heq))
    simp only [String.length_append] at hkey
    have hslash : "/".length = 1 := rfl
    omega

/-- Where there is a scope there is one that it is inside of. -/
theorem Inner.originExists {i j : String} (h : Inner i j) {t : ScopeTree} (hk : t.Keyed)
    (hp : Preorder t.scopes) (hi : originExists t i = true) : Synthesis.originExists t j = true := by
  cases h with
  | scope key rest =>
    rw [originExists_text] at hi ⊢
    obtain ⟨s, hs, hkey⟩ := Array.find?_isSome.mp hi
    obtain ⟨n, hn⟩ := Array.mem_iff_getElem?.mp hs
    have hsplit : s.key.toList = key.toList ++ '/' :: rest.toList := by
      rw [beq_iff_eq.mp hkey]
      simp [String.toList_append]
    obtain ⟨o, outer, ho, rfl⟩ := hk.exists_outer hp n hn hsplit
    exact Array.find?_isSome.mpr ⟨outer, Array.mem_of_getElem? ho, beq_self_eq_true _⟩

/-- The scope of an environment is inside of that of its parent. -/
theorem Synthesis.Account.inner_of_parent {t : ScopeTree} {ps : PlanTable} {options : LowerOptions}
    {baseline : Option Baseline} {s : Synthesis} {xs : List Settlement}
    (h : Account t ps options baseline s xs) (hps : ps.Sound t) (hk : t.Keyed)
    (hp : Preorder t.scopes) {x : Settlement} (hx : x ∈ xs) {n : String}
    (hn : x.env.parent = some n) : ∃ y ∈ xs, y.env.name = n ∧
      Inner x.env.identity.text y.env.identity.text := by
  obtain ⟨y, hy, hname, i, o, hi, ho, haround⟩ := h.exists_parent hps hx hn
  obtain ⟨p, hpx, -⟩ := h.exists_position hx
  obtain ⟨q, hqy, -⟩ := h.exists_position hy
  obtain ⟨-, inner, hinner, hident⟩ := hps.linking.placed.origin p x.plan i hpx hi
  obtain ⟨-, outer, houter, hident'⟩ := hps.linking.placed.origin q y.plan o hqy ho
  obtain ⟨rest, hkey⟩ := hk.exists_rest hp houter i hinner haround
  refine ⟨y, hy, hname, ?_⟩
  rw [h.identity_env hx, h.identity_env hy, hident, hident', hkey]
  exact .scope outer.key rest

/-! ## One lowering -/

/-- Where the parent `n` of a layout is: further out among the live layouts, or among those that
were superseded. -/
inductive ParentAt (live past : List NamedLayout) (e : NamedLayout) (n : String) : Prop where
  | live (f : NamedLayout) : f ∈ live → Inner e.1 f.1 → f.2.name = n → ParentAt live past e n
  | superseded (f : NamedLayout) : f ∈ past → f.2.state = .superseded → f.2.name = n →
      ParentAt live past e n

/-- The parents of the layouts of a baseline are known. -/
def Anchored (baseline : Option Baseline) : Prop :=
  ∀ e ∈ priorLayouts baseline, ∀ n, e.2.parent = some n →
    ParentAt (priorLayouts baseline) (pastOf baseline) e n

/-- There is nothing to know without a baseline. -/
theorem Anchored.none : Anchored none :=
  nofun

namespace Stages

variable {t : ScopeTree} {options : LowerOptions} {baseline : Option Baseline} {u : LoweredUnit}
  {a : Captures} {ps : PlanTable} {s : Synthesis} {xs : List Settlement}

variable (h : Stages t options baseline u a ps s xs)
include h

/-- What becomes of a prior layout whose scope is there: it is live under its name, or it was
superseded. -/
theorem live_or_superseded (hb : Continuable baseline)
    (hsorted : SortedMap.Sorted (priorLayouts baseline)) {f : NamedLayout}
    (hf : f ∈ priorLayouts baseline) (horigin : originExists t f.1 = true) :
    (∃ l, (f.1, l) ∈ u.live ∧ l.name = f.2.name) ∨
      (f.1, { f.2 with state := .superseded }) ∈ u.history := by
  -- A layout is made anew for the same identity, or it is left over and carried along.
  by_cases hproduced : f.1 ∈ producedBy ps
  · obtain ⟨y, hy, hident⟩ := h.account.mem_producedBy.mp hproduced
    have hprior : priorOf baseline y.plan = some f.2 := by
      cases baseline with
      | none => cases hf
      | some b =>
        have hfind : b.envs.find? f.1 = some f.2 := hsorted.mem_iff.mp hf
        rw [priorOf, Option.bind_some, Baseline.active?, hident, hfind, Option.filter_some,
          if_pos (beq_iff_eq.mpr (hb.active f hf))]
    have hlive : (f.1, y.env.layout) ∈ u.live :=
      h.mem_live.mpr (.inl ⟨y, hy, by rw [h.account.identity_env hy, hident]⟩)
    cases (h.account.settled y hy).outcome with
    | minted _ _ hnone => cases hprior.symm.trans hnone
    | reused l _ hprior' _ _ _ hname =>
      cases hprior.symm.trans hprior'
      exact .inl ⟨_, hlive, hname⟩
    | superseded l reason _ _ hprior' _ hdecision =>
      cases hprior.symm.trans hprior'
      refine .inr ?_
      rw [h.history_eq, goneOf]
      refine List.mem_append_right _ (List.mem_append_left _ (List.mem_filterMap.mpr ⟨y, hy, ?_⟩))
      rw [Settlement.superseded?, hdecision, hident]
  · refine .inl ⟨f.2, h.mem_live.mpr (.inr ⟨hf, ?_, horigin⟩), rfl⟩
    simpa [isLeft, hproduced] using hb.active f hf

/-- The parent of a live layout is live, or the layout was carried on and its parent superseded. -/
theorem parentAt_of_live (hk : t.Keyed) (hp : Preorder t.scopes) (hb : Continuable baseline)
    (hsorted : SortedMap.Sorted (priorLayouts baseline)) (hanchored : Anchored baseline)
    {e : NamedLayout} (he : e ∈ u.live) {n : String} (hn : e.2.parent = some n) :
    (∃ f ∈ u.live, Inner e.1 f.1 ∧ f.2.name = n) ∨
      e ∈ u.carried ∧ ∃ f ∈ u.history, f.2.state = .superseded ∧ f.2.name = n := by
  rcases h.mem_live.mp he with ⟨x, hx, rfl⟩ | ⟨hprior, hleft, horigin⟩
  · obtain ⟨y, hy, hname, hinner⟩ := h.account.inner_of_parent h.plans hk hp hx hn
    exact .inl ⟨_, h.mem_live.mpr (.inl ⟨y, hy, rfl⟩), hinner, hname⟩
  · have hcarried : e ∈ u.carried := by
      rw [h.unit.carried, h.account.carried]
      exact List.mem_filter.mpr ⟨List.mem_filter.mpr ⟨hprior, hleft⟩, horigin⟩
    cases hanchored e hprior n hn with
    | live f hf hinner hname =>
      rcases h.live_or_superseded hb hsorted hf (hinner.originExists hk hp horigin) with
        ⟨l, hl, hkept⟩ | hgone
      · exact .inl ⟨_, hl, hinner, hkept.trans hname⟩
      · exact .inr ⟨hcarried, _, hgone, rfl, hname⟩
    | superseded f hf hstate hname =>
      refine .inr ⟨hcarried, f, ?_, hstate, hname⟩
      rw [h.history_eq]
      exact List.mem_append_left _ hf

end Stages

/-! ## Any number of lowerings -/

/-- Where the parent `n` of a layout that a unit leaves is. -/
inductive LoweredUnit.ParentIn (u : LoweredUnit) (e : NamedLayout) (n : String) : Prop where
  /-- Another layout that it leaves live has the name, and none of the history. -/
  | live (f : NamedLayout) : f ∈ u.nextBaseline.envs → f.1 ≠ e.1 → f.2.name = n →
      (∀ g ∈ u.nextBaseline.history, g.2.name ≠ n) → u.ParentIn e n
  /-- The layout was carried on, and the name is that of a layout of the history, which was
  superseded and not retired. -/
  | superseded (f : NamedLayout) : e ∈ u.carried → f ∈ u.nextBaseline.history → f.2.name = n →
      (∀ g ∈ u.nextBaseline.history, g.2.name = n → g.2.state = .superseded) → u.ParentIn e n

namespace Stages

variable {t : ScopeTree} {options : LowerOptions} {baseline : Option Baseline} {u : LoweredUnit}
  {a : Captures} {ps : PlanTable} {s : Synthesis} {xs : List Settlement}

/-- The parents of what a unit leaves are known. -/
theorem anchored (h : Stages t options baseline u a ps s xs) (hk : t.Keyed) (ht : t.Sound)
    (hb : Continuable baseline) (hsorted : SortedMap.Sorted (priorLayouts baseline))
    (hanchored : Anchored baseline) : Anchored (some u.nextBaseline) := by
  obtain ⟨⟨holds, hw⟩, hn⟩ := ht
  intro e he n hparent
  have hlive := (h.mem_nextBaseline hn hsorted).mp he
  rcases h.parentAt_of_live hk hw.preorder hb hsorted hanchored hlive hparent with
    ⟨f, hf, hinner, hname⟩ | ⟨-, f, hf, hstate, hname⟩
  · exact .live f ((h.mem_nextBaseline hn hsorted).mpr hf) hinner hname
  · exact .superseded f hf hstate hname

/-- The parents of what a unit leaves are live, or were superseded and not retired. -/
theorem parentIn (h : Stages t options baseline u a ps s xs) (hk : t.Keyed) (ht : t.Sound)
    (hb : Continuable baseline) (hsorted : SortedMap.Sorted (priorLayouts baseline))
    (hanchored : Anchored baseline) {e : NamedLayout} (he : e ∈ u.nextBaseline.envs) {n : String}
    (hparent : e.2.parent = some n) : u.ParentIn e n := by
  obtain ⟨⟨holds, hw⟩, hn⟩ := ht
  have hlive := (h.mem_nextBaseline hn hsorted).mp he
  rcases h.parentAt_of_live hk hw.preorder hb hsorted hanchored hlive hparent with
    ⟨f, hf, hinner, rfl⟩ | ⟨hcarried, f, hf, hstate, rfl⟩
  · exact .live f ((h.mem_nextBaseline hn hsorted).mpr hf) hinner.ne rfl fun g hg =>
      h.live_ne_of_history hn hb hg hf
  · -- no other layout of the history has the name
    refine .superseded f hcarried hf rfl fun g hg hname => ?_
    rwa [List.inj_on_of_nodup_map (h.nodup_history hn hb) hg hf hname]

end Stages

/-- Units of successive lowerings leave layouts whose parents are live, or were superseded and not
retired, if what the first of them starts from is so. -/
theorem parentIn_of_lowerChain : ∀ {steps : List (ScopeTree × LowerOptions)}
    {baseline : Option Baseline} {us : List LoweredUnit}, Continuable baseline →
    SortedMap.Sorted (priorLayouts baseline) → Anchored baseline →
    nextGeneration baseline + steps.length ≤ generationCount →
    (∀ x ∈ steps, x.1.Sound ∧ x.1.Keyed) → lowerChain baseline steps = .ok us →
    ∀ u ∈ us, ∀ e ∈ u.nextBaseline.envs, ∀ n, e.2.parent = some n → u.ParentIn e n
  | [], _, us, _, _, _, _, _, hus => by
    cases hus
    exact nofun
  | x :: steps, baseline, us, hb, hsorted, hanchored, hlen, hsteps, hus => by
    obtain ⟨u, hu, hus⟩ := Lower.bind_eq_ok.mp hus
    obtain ⟨vs, hvs, hus⟩ := Lower.bind_eq_ok.mp hus
    cases hus
    obtain ⟨ht, hk⟩ := hsteps x List.mem_cons_self
    obtain ⟨holds, hw⟩ := ht.wellBound
    obtain ⟨a, ps, s, xs, h⟩ := exists_stages hw hu
    refine List.forall_mem_cons.mpr
      ⟨fun e he n hn => h.parentIn hk ht hb hsorted hanchored he hn, ?_⟩
    cases steps with
    | nil =>
      cases hvs
      exact nofun
    | cons y steps =>
      rw [List.length_cons, List.length_cons] at hlen
      have hgen : u.generation + 1 < generationCount := by
        rw [h.generation]
        omega
      have hnext : nextGeneration (some u.nextBaseline) = nextGeneration baseline + 1 :=
        (LoweredUnit.nextGeneration_eq hgen).trans (congrArg (· + 1) h.generation)
      exact parentIn_of_lowerChain (h.continuable ht.wellNamed hb hgen)
        (SortedMap.sorted_ofList _) (h.anchored hk ht hb hsorted hanchored)
        (by rw [hnext, List.length_cons]; omega)
        (fun z hz => hsteps z (List.mem_cons_of_mem _ hz)) hvs

end ClosureEnv
