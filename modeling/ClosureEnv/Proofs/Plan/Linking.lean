import ClosureEnv.Proofs.Plan.Alike

/-!
# Linking environments

A round of linking sets parents to nearest plans and notes what closures need for the sake of what
is made inside of them (`linkRound_spec`). As both only grow, rounds end (`linkRounds_spec`), and
then every closure reaches all that it needs by way of parents and needs all that is needed inside
of it.
-/

namespace ClosureEnv.PlanTable

variable {t : ScopeTree} {holds : VarId → ClosureId → Prop} {captured : VarId → Prop}
  {ps : PlanTable}

/-- The parent of a plan. -/
def parent? (ps : PlanTable) (p : PlanId) : Option PlanId :=
  ps.plans[p]?.bind Plan.parent

/-- The closure is made around the scope, at or inside of scope `o`. -/
def Between (t : ScopeTree) (c : ClosureId) (s o : ScopeId) : Prop :=
  ∃ k, t.closures[c]? = some k ∧ AroundEq t.scopes k.scope s ∧ Around t.scopes o k.scope

/-- A closure needs a variable that is held at or around scope `o`. -/
def Reaching (t : ScopeTree) (ps : PlanTable) (c : ClosureId) (o : ScopeId) : Prop :=
  ∃ v r z, t.Needs c v ∧ ps.varPlan.find? v = some r ∧ ps.From r z ∧ AroundEq t.scopes z o

/-- A closure needs a variable that is held at or inside of scope `s`. -/
def ReachingIn (t : ScopeTree) (ps : PlanTable) (c : ClosureId) (s : ScopeId) : Prop :=
  ∃ u d z, t.Needs c u ∧ ps.varPlan.find? u = some d ∧ ps.From d z ∧ AroundEq t.scopes s z

/-- A closure calls for the link from `p` to `q`: it needs variables on both sides. -/
def Spanned (t : ScopeTree) (ps : PlanTable) (p q : PlanId) : Prop :=
  ∃ c s o, ps.From p s ∧ ps.From q o ∧ ReachingIn t ps c s ∧ Reaching t ps c o

/-- Why a closure needs a plan: it needs a variable that the plan holds, or a plan that is made
inside of the closure has that one as its parent. -/
def Caused (t : ScopeTree) (ps : PlanTable) (c : ClosureId) (q : PlanId) : Prop :=
  (∃ v, t.Needs c v ∧ ps.varPlan.find? v = some q) ∨
    ∃ p s o, ps.parent? p = some q ∧ ps.From p s ∧ ps.From q o ∧ Between t c s o

/-- What holds of a table while it is linked. -/
structure Linking (t : ScopeTree) (captured : VarId → Prop) (ps : PlanTable) : Prop where
  /-- Its plans are well placed. -/
  placed : Placed t captured ps
  /-- Parents are nearest plans. -/
  parent : ∀ p q, ps.parent? p = some q → Nearest t ps p q
  /-- Closures need plans from around them. -/
  needed : ∀ c p, p ∈ ps.neededBy c → ∃ k o, t.closures[c]? = some k ∧ ps.From p o ∧
    Around t.scopes o k.scope
  /-- Closures need the plans of the variables that they need. -/
  vars : ∀ c v p, t.Needs c v → ps.varPlan.find? v = some p → p ∈ ps.neededBy c
  /-- Closures need no plan without a cause. -/
  cause : ∀ c p, p ∈ ps.neededBy c → Caused t ps c p
  /-- Some closure calls for each link. -/
  spanned : ∀ p q, ps.parent? p = some q → Spanned t ps p q

/-- What holds of a table that is linked in full. -/
structure Closed (t : ScopeTree) (ps : PlanTable) : Prop where
  /-- All that a closure needs is on the way from the innermost plan that it needs. -/
  chain : ∀ c d p, c < t.closures.size → IsInnermost t ps (ps.neededBy c) d →
    p ∈ ps.neededBy c → Relation.ReflTransGen (fun a b => ps.parent? a = some b) d p
  /-- A closure needs the parents of the plans that are made inside of it. -/
  parents : ∀ c p q s o, ps.parent? p = some q → ps.From p s → ps.From q o → Between t c s o →
    q ∈ ps.neededBy c
  /-- A closure needs what the closures that are made inside of it need. -/
  closures : ∀ c d k p o, t.closures[d]? = some k → p ∈ ps.neededBy d → ps.From p o →
    Between t c k.declaredIn o → p ∈ ps.neededBy c

/-- What is held at or around a scope is held at or around those inside of it. -/
theorem Reaching.inside (h : t.WellBound holds) {c : ClosureId} {o o' : ScopeId}
    (hr : Reaching t ps c o) (ho : AroundEq t.scopes o o') : Reaching t ps c o' := by
  obtain ⟨v, r, z, hn, hv, hz, hzo⟩ := hr
  exact ⟨v, r, z, hn, hv, hz, hzo.trans h.preorder ho⟩

/-- What calls for a link calls for it when plans and scopes stay. -/
theorem Spanned.mono {ps' : PlanTable} {p q : PlanId} (hs : Spanned t ps p q)
    (hvars : ps'.varPlan = ps.varPlan) (hfrom : ∀ p s, ps.From p s → ps'.From p s) :
    Spanned t ps' p q := by
  obtain ⟨c, s, o, hs, ho, ⟨u, d, z, hu, hd, hz, hsz⟩, v, r, y, hv, hr, hy, hyo⟩ := hs
  exact ⟨c, s, o, hfrom p s hs, hfrom q o ho, ⟨u, d, z, hu, hvars ▸ hd, hfrom d z hz, hsz⟩,
    v, r, y, hv, hvars ▸ hr, hfrom r y hy, hyo⟩

/-- A cause stays when plans, scopes and parents stay. -/
theorem Caused.mono {ps' : PlanTable} {c : ClosureId} {q : PlanId} (hc : Caused t ps c q)
    (hvars : ps'.varPlan = ps.varPlan) (hfrom : ∀ p s, ps.From p s → ps'.From p s)
    (hparent : ∀ p q, ps.parent? p = some q → ps'.parent? p = some q) : Caused t ps' c q := by
  rcases hc with ⟨v, hn, hv⟩ | ⟨p, s, o, hp, hs, ho, hb⟩
  · exact .inl ⟨v, hn, hvars ▸ hv⟩
  · exact .inr ⟨p, s, o, hparent p q hp, hfrom p s hs, hfrom q o ho, hb⟩

/-- Of the variables that a closure needs, the closures around it need those that are held around
them: no closure lies between a variable and the scope that holds it. -/
theorem Placed.needs_outer (hps : Placed t captured ps) (h : t.WellBound holds) {c d : ClosureId}
    {k l : Closure} {v : VarId} {r : PlanId} {z : ScopeId} (hn : t.Needs d v)
    (hv : ps.varPlan.find? v = some r) (hz : ps.From r z) (hk : t.closures[c]? = some k)
    (hl : t.closures[d]? = some l) (hkl : AroundEq t.scopes k.scope l.scope)
    (hzk : Around t.scopes z k.scope) : t.Needs c v := by
  obtain ⟨x, hx, hvx⟩ := hps.var_plan v r hv
  obtain ⟨-, -, y, z', hy, hz', hzy, hclear⟩ := hps.slot r x v hx hvx
  cases hz.unique ⟨x, hx, hz'⟩
  -- from the scope that holds the variable down to its own there are only blocks
  have hno : ¬ AroundEq t.scopes k.scope y.scope := by
    intro hky
    obtain ⟨⟨sc, hsc, hblock⟩, -⟩ := hclear k.scope hzk hky
    obtain ⟨sc', hsc', hown, -⟩ := h.closure_scope c k hk
    cases hsc.symm.trans hsc'
    rw [(h.closure_iff _ sc hsc).mpr ⟨c, hown⟩] at hblock
    cases hblock
  have hyk : Around t.scopes y.scope k.scope := by
    rcases AroundEq.total h.preorder (.inr (h.around_of_needs hn hl hy)) hkl with
      (heq | hyk) | hky
    · exact absurd (.inl heq.symm) hno
    · exact hyk
    · exact absurd (.inr hky) hno
  obtain ⟨outer, inner, y', hout, hin, hy', hfree, hle, -⟩ := h.needs_iff.mp hn
  cases hl.symm.trans hout
  cases hy.symm.trans hy'
  exact h.needs_iff.mpr ⟨k, inner, y, hk, hin, hy, hfree, hkl.trans h.preorder hle, hyk⟩

namespace Linking

variable (hl : Linking t captured ps) (h : t.WellBound holds)
include hl

/-- A variable is held around the closures that need it. -/
theorem around_of_var {c : ClosureId} {k : Closure} {v : VarId} {d : PlanId} {z : ScopeId}
    (hn : t.Needs c v) (hv : ps.varPlan.find? v = some d) (hz : ps.From d z)
    (hk : t.closures[c]? = some k) : Around t.scopes z k.scope := by
  obtain ⟨k', z', hk', hz', hzk⟩ := hl.needed c d (hl.vars c v d hn hv)
  cases hk.symm.trans hk'
  cases hz.unique hz'
  exact hzk

include h

/-- A closure that reaches into a scope is inside of the closures around the scope. -/
theorem exists_closure_within {c d : ClosureId} {k : Closure} {s o : ScopeId}
    (hin : ReachingIn t ps d s) (hb : Between t c s o) (hk : t.closures[c]? = some k) :
    ∃ l, t.closures[d]? = some l ∧ Around t.scopes k.scope l.scope := by
  obtain ⟨u, e, z, hu, he, hz, hsz⟩ := hin
  obtain ⟨l, -, hl', -⟩ := h.exists_of_needs hu
  obtain ⟨k', hk', hks, -⟩ := hb
  cases hk.symm.trans hk'
  exact ⟨l, hl', (hks.trans h.preorder hsz).trans_around h.preorder (hl.around_of_var hu he hz hl')⟩

/-- A closure needs a plan for the sake of a variable at or around it. -/
theorem reaching {c : ClosureId} {p : PlanId} {o : ScopeId} (hp : p ∈ ps.neededBy c)
    (ho : ps.From p o) : Reaching t ps c o := by
  rcases hl.cause c p hp with ⟨v, hn, hv⟩ | ⟨q, s, o', hq, hs, ho', hb⟩
  · exact ⟨v, p, o, hn, hv, ho, .inl rfl⟩
  · cases ho.unique ho'
    obtain ⟨d, s', o'', hs', ho'', hin, v, r, y, hn, hv, hy, hyo⟩ := hl.spanned q p hq
    cases hs.unique hs'
    cases ho.unique ho''
    obtain ⟨k, hk, -, hok⟩ := id hb
    obtain ⟨l, hl', hkl⟩ := hl.exists_closure_within h hin hb hk
    exact ⟨v, r, y, hl.placed.needs_outer h hn hv hy hk hl' (.inr hkl)
      (hyo.trans_around h.preorder hok), hv, hy, hyo⟩

/-- A closure that needs a plan from at or inside of the scope of `p`, and a variable that is held
at or around that of the nearest plan `q`, or else one inside of it, calls for the link between
them. -/
theorem spanned_of_needed {c : ClosureId} {d p q : PlanId} {s z o : ScopeId}
    (hd : d ∈ ps.neededBy c) (hz : ps.From d z) (hs : ps.From p s) (hsz : AroundEq t.scopes s z)
    (hn : Nearest t ps p q) (ho : ps.From q o) (hr : Reaching t ps c o) : Spanned t ps p q := by
  obtain ⟨s', o', hs', ho', hos, hnear⟩ := hn
  cases hs.unique hs'
  cases ho.unique ho'
  rcases hl.cause c d hd with ⟨u, hu, hud⟩ | ⟨p', x, z', hp', hx, hz', hb⟩
  · exact ⟨c, s, o, hs, ho, ⟨u, d, z, hu, hud, hz, hsz⟩, hr⟩
  cases hz.unique hz'
  obtain ⟨e, x', z'', hx', hz'', ⟨u, d', w, hu, hud, hw, hxw⟩, v, r, y, hv, hvr, hy, hyz⟩ :=
    hl.spanned p' d hp'
  cases hx.unique hx'
  cases hz.unique hz''
  obtain ⟨k, hk, hkx, hzk⟩ := id hb
  have hsw : AroundEq t.scopes s w :=
    (hsz.trans h.preorder (.inr hzk)).trans h.preorder (hkx.trans h.preorder hxw)
  -- the variable that the inner closure needs from outside is held around `q`, or inside of it
  rcases AroundEq.total h.preorder hyz (.inr (hos.trans_eq h.preorder hsz)) with hyo | hoy
  · exact ⟨e, s, o, hs, ho, ⟨u, d', w, hu, hud, hw, hsw⟩, v, r, y, hv, hvr, hy, hyo⟩
  · have hsy : AroundEq t.scopes s y := by
      rcases AroundEq.total h.preorder hsz hyz with hsy | hys
      · exact hsy
      · exact absurd (hoy.trans_eq h.preorder (hnear r y hy hys)) (Around.irrefl h.preorder)
    obtain ⟨l, hl', hkl⟩ :=
      hl.exists_closure_within h ⟨u, d', w, hu, hud, hw, hxw⟩ hb hk
    have hvc := hl.placed.needs_outer h hv hvr hy hk hl' (.inr hkl)
      (hyz.trans_around h.preorder hzk)
    exact ⟨c, s, o, hs, ho, ⟨v, r, y, hvc, hvr, hy, hsy⟩, hr⟩

end Linking

/-! ## One round -/

/-- The links that a closure calls for. -/
theorem Linking.linksFor_spec (hl : Linking t captured ps) (h : t.WellBound holds)
    {c : ClosureId} {k : Closure} (hk : t.closures[c]? = some k) :
    ∃ ls, ps.linksFor t c = .ok ls ∧
      (∀ l ∈ ls, Nearest t ps l.1 l.2 ∧ Spanned t ps l.1 l.2) ∧
      ∀ d p, IsInnermost t ps (ps.neededBy c) d → p ∈ ps.neededBy c →
        Relation.ReflTransGen (fun a b => (a, b) ∈ ls) d p := by
  have hneeded (p : PlanId) (hp : p ∈ ps.neededBy c) :
      ∃ s, ps.From p s ∧ Around t.scopes s k.scope := by
    obtain ⟨k', o, hk', ho, ha⟩ := hl.needed c p hp
    cases hk.symm.trans hk'
    exact ⟨o, ho, ha⟩
  obtain ⟨r, hr, hnone, hsome⟩ := hl.placed.innermost_spec h hneeded
  unfold linksFor
  dsimp only
  rw [hr, Lower.ok_bind]
  cases r with
  | none =>
    refine ⟨[], rfl, fun l hl => (by cases hl), fun d p _ hp => ?_⟩
    rw [hnone rfl] at hp
    cases hp
  | some d =>
    obtain ⟨hd, s, hs, hin⟩ := hsome d rfl
    have hsize : s < t.scopes.size := by
      obtain ⟨sc, hsc⟩ := hl.placed.exists_scope hs
      exact (Array.getElem?_eq_some_iff.mp hsc).1
    obtain ⟨ls, hls, hnear, hpath⟩ := hl.placed.chainFrom_spec h c s (t.scopes.size + 1) d
      ((ps.neededBy c).filter (· != d)) (Nat.lt_succ_of_lt hsize) hs (by
        intro p hp
        obtain ⟨hp, hpd⟩ := List.mem_filter.mp hp
        obtain ⟨o, ho, -⟩ := hneeded p hp
        refine ⟨o, ho, (hin p o hp ho).resolve_left ?_⟩
        rintro rfl
        simp [hl.placed.from_inj ho hs] at hpd)
    have hspanned (l : PlanId × PlanId) (hl' : l ∈ ls) :
        Nearest t ps l.1 l.2 ∧ Spanned t ps l.1 l.2 := by
      obtain ⟨hn, x, y, p, o, hx, hxs, hy, hp, ho, hoy⟩ := hnear l hl'
      exact ⟨hn, hl.spanned_of_needed h hd hs hx hxs hn hy
        ((hl.reaching h (List.mem_filter.mp hp).1 ho).inside h hoy)⟩
    refine ⟨ls, hls, hspanned, fun d' p hd' hp => ?_⟩
    obtain ⟨hd'n, s', hs', hin'⟩ := hd'
    have heq : s = s' := AroundEq.antisymm h.preorder (hin' d s hd hs) (hin d' s' hd'n hs')
    subst heq
    cases hl.placed.from_inj hs hs'
    by_cases hpd : p = d
    · subst hpd
      exact .refl
    · exact hpath p (List.mem_filter.mpr ⟨hp, by simpa using hpd⟩)

/-- The parent of a plan after some links. -/
def parentAfter (links : List (PlanId × PlanId)) (p : PlanId) (old : Option PlanId) :
    Option PlanId :=
  links.foldl (fun o l => if l.1 = p then some l.2 else o) old

/-- Links change parents only. -/
theorem foldl_link (links : List (PlanId × PlanId)) (ps : PlanTable) :
    let ps' := links.foldl link ps
    Aligned ps ps' ∧ ps'.needed = ps.needed ∧ ps'.bindings = ps.bindings ∧
      ∀ p : Nat, p < ps.plans.size → ps'.parent? p = parentAfter links p (ps.parent? p) := by
  induction links generalizing ps with
  | nil => exact ⟨.of_plans rfl rfl rfl, rfl, rfl, fun _ _ => rfl⟩
  | cons l links ih =>
    have hlike : Aligned ps (link ps l) := by
      refine ⟨⟨rfl, rfl, fun p => ?_⟩, fun p => ?_⟩ <;>
      · unfold link
        dsimp only
        rw [Array.getElem?_modify]
        split
        · next heq => subst heq; cases ps.plans[l.1]? <;> rfl
        · rfl
    have hsize : (link ps l).plans.size = ps.plans.size := by simp [link]
    obtain ⟨ha, hn, hb, hp⟩ := ih (link ps l)
    refine ⟨hlike.trans ha, hn, hb, fun p hlt => ?_⟩
    rw [List.foldl_cons, hp p (by rw [hsize]; exact hlt)]
    unfold parentAfter
    rw [List.foldl_cons]
    congr 1
    unfold parent? link
    dsimp only
    rw [Array.getElem?_modify]
    have hx : ps.plans[p]? = some ps.plans[p] := Array.getElem?_eq_getElem hlt
    split
    · next heq =>
      subst heq
      simp [hx]
    · rfl

/-- The parent after some links is the one before, or that of a link. -/
theorem parentAfter_eq_some {links : List (PlanId × PlanId)} {p q : PlanId}
    {old : Option PlanId} (h : parentAfter links p old = some q) : old = some q ∨ (p, q) ∈ links := by
  unfold parentAfter at h
  induction links generalizing old with
  | nil => exact .inl h
  | cons l links ih =>
    rw [List.foldl_cons] at h
    rcases ih h with hold | hmem
    · split at hold
      · next heq =>
        subst heq
        cases hold
        exact .inr List.mem_cons_self
      · exact .inl hold
    · exact .inr (List.mem_cons_of_mem _ hmem)

/-- A link gives a plan a parent, and no link takes one away. -/
theorem exists_parentAfter {l : List (PlanId × PlanId)} {p : PlanId} {o : Option PlanId}
    (h : (∃ q, o = some q) ∨ ∃ q, (p, q) ∈ l) : ∃ q, parentAfter l p o = some q := by
  unfold parentAfter
  induction l generalizing o with
  | nil => exact h.resolve_right fun ⟨q, hq⟩ => by cases hq
  | cons l l ih =>
    rw [List.foldl_cons]
    refine ih ?_
    split
    · exact .inl ⟨_, rfl⟩
    · next hne =>
      rcases h with h | ⟨q, hq⟩
      · exact .inl h
      · rcases List.mem_cons.mp hq with rfl | hq
        · exact absurd rfl hne
        · exact .inr ⟨q, hq⟩

/-- Needs that are noted. -/
theorem foldl_need (needs : List (ClosureId × PlanId)) (ps : PlanTable) :
    let ps' := needs.foldl need ps
    ps'.plans = ps.plans ∧ ps'.scopePlan = ps.scopePlan ∧ ps'.varPlan = ps.varPlan ∧
      ps'.bindings = ps.bindings ∧
      ∀ c p, p ∈ ps'.neededBy c ↔ p ∈ ps.neededBy c ∨ (c, p) ∈ needs := by
  induction needs generalizing ps with
  | nil => exact ⟨rfl, rfl, rfl, rfl, fun c p => by simp⟩
  | cons n needs ih =>
    obtain ⟨h₁, h₂, h₃, h₄, hmem⟩ := ih (need ps n)
    refine ⟨h₁, h₂, h₃, h₄, fun c p => ?_⟩
    rw [List.foldl_cons, hmem, List.mem_cons]
    have hone : p ∈ (need ps n).neededBy c ↔ p ∈ ps.neededBy c ∨ (c, p) = n := by
      obtain ⟨c', p'⟩ := n
      unfold neededBy need
      dsimp only
      by_cases hc : c = c'
      · subst hc
        rw [SortedMap.find?_insert_self, Option.getD_some, SortedSet.mem_insert, neededBy]
        simp [or_comm]
      · rw [SortedMap.find?_insert_of_ne hc]
        simp [hc]
    rw [hone, or_assoc]

/-- A closure may be said to need a plan: the plan comes from around it, and there is a cause. -/
def MayCarry (t : ScopeTree) (ps : PlanTable) (n : ClosureId × PlanId) : Prop :=
  ∃ k o, t.closures[n.1]? = some k ∧ ps.From n.2 o ∧ Around t.scopes o k.scope ∧
    Caused t ps n.1 n.2

/-- What closures have to carry for the parent of a plan. -/
theorem Linking.carriedForParent_spec (hl : Linking t captured ps) (h : t.WellBound holds) {p : Nat}
    {x : Plan} (hx : ps.plans[p]? = some x) :
    ∃ ns, ps.carriedForParent t x = .ok ns ∧
      (∀ n ∈ ns, MayCarry t ps n) ∧
      ∀ c q s o, ps.parent? p = some q → ps.From p s → ps.From q o → Between t c s o →
        (c, q) ∈ ns := by
  have hparent : ps.parent? p = x.parent := by simp [parent?, hx]
  cases hq : x.parent with
  | none =>
    refine ⟨[], by simp [carriedForParent, hq, pure, Except.pure], fun n hn => (by cases hn), ?_⟩
    intro c q s o hpq
    rw [hparent, hq] at hpq
    cases hpq
  | some q =>
    obtain ⟨s, o, hps, hqo, ha, -⟩ := hl.parent p q (hparent.trans hq)
    obtain ⟨x', hx', ho⟩ := id hps
    cases hx.symm.trans hx'
    obtain ⟨cs, hcs, hmem⟩ := h.closuresBetween_spec (ha.lt_size h.preorder) (.inr ha)
    refine ⟨cs.map (·, q), ?_, ?_, ?_⟩
    · simp [carriedForParent, hq, ho, hqo.origin?, hcs, bind, Except.bind, pure, Except.pure]
    · intro n hn
      obtain ⟨c, hc, rfl⟩ := List.mem_map.mp hn
      obtain ⟨k, hk, hks, hok⟩ := (hmem c).mp hc
      exact ⟨k, o, hk, hqo, hok, .inr ⟨p, s, o, hparent.trans hq, hps, hqo, k, hk, hks, hok⟩⟩
    · intro c q' s' o' hpq hps' hqo' hbetween
      cases hpq.symm.trans (hparent.trans hq)
      cases hps.unique hps'
      cases hqo.unique hqo'
      exact List.mem_map.mpr ⟨c, (hmem c).mpr hbetween, rfl⟩

/-- What closures have to carry for a closure made inside of them. -/
theorem Linking.carriedForClosure_spec (hl : Linking t captured ps) (h : t.WellBound holds)
    {d : Nat} {k : Closure} (hk : t.closures[d]? = some k) :
    ∃ ns, ps.carriedForClosure t k = .ok ns ∧
      (∀ n ∈ ns, MayCarry t ps n) ∧
      ∀ c p o, p ∈ ps.neededBy d → ps.From p o → Between t c k.declaredIn o → (c, p) ∈ ns := by
  obtain ⟨sc, hsc, -, hpar⟩ := h.closure_scope d k hk
  obtain ⟨-, hdecl⟩ := h.parent_lt hsc hpar
  have hpi := (parentIn?_of_scope hsc).trans hpar
  obtain rfl := h.closure_id d k hk
  obtain ⟨ns, hns, hmem⟩ : ∃ ns, ps.carriedForClosure t k = .ok ns ∧ ∀ n, n ∈ ns ↔
      ∃ p ∈ ps.neededBy k.id, n.2 = p ∧ ∃ o, ps.From p o ∧ Between t n.1 k.declaredIn o := by
    refine Lower.mapM_bind_flatten fun p hp => ?_
    obtain ⟨k', o, hk', ho, ha⟩ := hl.needed k.id p hp
    cases hk.symm.trans hk'
    obtain ⟨cs, hcs, hmem⟩ := h.closuresBetween_spec hdecl (aroundEq_parent h.preorder hpi ha)
    refine ⟨cs.map (·, p), by rw [ho.origin?]; dsimp only; rw [hcs]; rfl, fun n => ?_⟩
    rw [List.mem_map]
    constructor
    · rintro ⟨c, hc, rfl⟩
      exact ⟨rfl, o, ho, (hmem c).mp hc⟩
    · rintro ⟨rfl, o', ho', hbetween⟩
      cases ho.unique ho'
      exact ⟨n.1, (hmem n.1).mpr hbetween, rfl⟩
  refine ⟨ns, hns, fun n hn => ?_,
    fun c p o hp hfrom hbetween => (hmem _).mpr ⟨p, hp, rfl, o, hfrom, hbetween⟩⟩
  obtain ⟨p, hp, rfl, o, hfrom, k', hk', hkd, hok⟩ := (hmem n).mp hn
  have hkk := around_of_parent h.preorder hpi hkd
  refine ⟨k', o, hk', hfrom, hok, ?_⟩
  rcases hl.cause k.id n.2 hp with ⟨v, hn, hv⟩ | ⟨p', s, o', hp', hs, ho', l, hl', hls, -⟩
  · exact .inl ⟨v, hl.placed.needs_outer h hn hv hfrom hk' hk (.inr hkk) hok, hv⟩
  · cases hk.symm.trans hl'
    exact .inr ⟨p', s, o, hp', hs, hfrom, k', hk', .inr (hkk.trans_eq h.preorder hls), hok⟩

/-- The links that the closures of a tree call for. -/
structure Called (t : ScopeTree) (ps : PlanTable) (links : List (PlanId × PlanId)) : Prop where
  /-- They lead to nearest plans, and a closure calls for each. -/
  sound : ∀ l ∈ links, Nearest t ps l.1 l.2 ∧ Spanned t ps l.1 l.2
  /-- They lead from the innermost plan that a closure needs to all that it needs. -/
  path : ∀ c d p, c < t.closures.size → IsInnermost t ps (ps.neededBy c) d → p ∈ ps.neededBy c →
    Relation.ReflTransGen (fun a b => (a, b) ∈ links) d p

/-- A closure of a tree has its place as its number. -/
theorem exists_of_mem_closures (h : t.WellBound holds) {k : Closure} (hk : k ∈ t.closures.toList) :
    ∃ c : Nat, t.closures[c]? = some k ∧ k.id = c := by
  obtain ⟨c, hc⟩ := List.mem_iff_getElem?.mp hk
  rw [Array.getElem?_toList] at hc
  exact ⟨c, hc, h.closure_id c k hc⟩

/-- The links of a round. -/
theorem Linking.exists_links (hl : Linking t captured ps) (h : t.WellBound holds) :
    ∃ lss, t.closures.toList.mapM (fun c => ps.linksFor t c.id) = .ok lss ∧
      Called t ps lss.flatten := by
  obtain ⟨lss, hlss, hof, hall⟩ := Lower.mapM_spec (f := fun k => ps.linksFor t k.id)
    (P := fun k ls => (∀ l ∈ ls, Nearest t ps l.1 l.2 ∧ Spanned t ps l.1 l.2) ∧
      ∀ d p, IsInnermost t ps (ps.neededBy k.id) d → p ∈ ps.neededBy k.id →
        Relation.ReflTransGen (fun a b => (a, b) ∈ ls) d p) (l := t.closures.toList) fun k hk => by
    obtain ⟨c, hc, rfl⟩ := exists_of_mem_closures h hk
    exact hl.linksFor_spec h hc
  refine ⟨lss, hlss, fun l hmem => ?_, fun c d p hc hd hp => ?_⟩
  · obtain ⟨ls, hls, hlls⟩ := List.mem_flatten.mp hmem
    obtain ⟨-, -, hsound, -⟩ := hof ls hls
    exact hsound l hlls
  · have hk : t.closures[c]? = some t.closures[c] := Array.getElem?_eq_getElem hc
    obtain ⟨ls, hls, -, hpath⟩ := hall _ (Array.mem_toList_iff.mpr (Array.mem_of_getElem? hk))
    rw [h.closure_id c _ hk] at hpath
    exact Relation.ReflTransGen.mono (fun _ _ hab => List.mem_flatten.mpr ⟨ls, hls, hab⟩) _ _
      (hpath d p hd hp)

/-- What closures have to carry for what is made inside of them. -/
structure Due (t : ScopeTree) (ps : PlanTable) (needs : List (ClosureId × PlanId)) : Prop where
  /-- It comes from around them, and there is a cause for it. -/
  sound : ∀ n ∈ needs, MayCarry t ps n
  /-- They carry the parents of the plans that are made inside of them. -/
  parents : ∀ c p q s o, ps.parent? p = some q → ps.From p s → ps.From q o → Between t c s o →
    (c, q) ∈ needs
  /-- They carry what the closures that are made inside of them need. -/
  closures : ∀ c d k p o, t.closures[d]? = some k → p ∈ ps.neededBy d → ps.From p o →
    Between t c k.declaredIn o → (c, p) ∈ needs

/-- What closures have to carry in a round. -/
theorem Linking.exists_due (hl : Linking t captured ps) (h : t.WellBound holds) :
    ∃ ns₁ ns₂, ps.plans.toList.mapM (ps.carriedForParent t) = .ok ns₁ ∧
      t.closures.toList.mapM (ps.carriedForClosure t) = .ok ns₂ ∧
      Due t ps (ns₁.flatten ++ ns₂.flatten) := by
  obtain ⟨ns₁, hns₁, hof₁, hall₁⟩ := Lower.mapM_spec (f := ps.carriedForParent t)
    (P := fun x ns => (∀ n ∈ ns, MayCarry t ps n) ∧ ∀ c q s o, ps.parent? x.id = some q →
      ps.From x.id s → ps.From q o → Between t c s o → (c, q) ∈ ns)
    (l := ps.plans.toList) fun x hx => by
    obtain ⟨p, hp⟩ := List.mem_iff_getElem?.mp hx
    rw [Array.getElem?_toList] at hp
    obtain rfl := hl.placed.plan_id p x hp
    exact hl.carriedForParent_spec h hp
  obtain ⟨ns₂, hns₂, hof₂, hall₂⟩ := Lower.mapM_spec (f := ps.carriedForClosure t)
    (P := fun k ns => (∀ n ∈ ns, MayCarry t ps n) ∧ ∀ c p o, p ∈ ps.neededBy k.id →
      ps.From p o → Between t c k.declaredIn o → (c, p) ∈ ns)
    (l := t.closures.toList) fun k hk => by
    obtain ⟨c, hc, rfl⟩ := exists_of_mem_closures h hk
    exact hl.carriedForClosure_spec h hc
  refine ⟨ns₁, ns₂, hns₁, hns₂, fun n hn => ?_, fun c p q s o hpq hs ho hb => ?_,
    fun c d k p o hk hp ho hb => ?_⟩
  · rcases List.mem_append.mp hn with hn | hn <;> obtain ⟨ns, hns, hn⟩ := List.mem_flatten.mp hn
    · obtain ⟨-, -, hsound, -⟩ := hof₁ ns hns
      exact hsound n hn
    · obtain ⟨-, -, hsound, -⟩ := hof₂ ns hns
      exact hsound n hn
  · obtain ⟨x, hx, -⟩ := id hs
    obtain rfl := hl.placed.plan_id p x hx
    obtain ⟨ns, hns, -, hin⟩ := hall₁ x (Array.mem_toList_iff.mpr (Array.mem_of_getElem? hx))
    exact List.mem_append_left _ (List.mem_flatten.mpr ⟨ns, hns, hin c q s o hpq hs ho hb⟩)
  · obtain rfl := h.closure_id d k hk
    obtain ⟨ns, hns, -, hin⟩ := hall₂ k (Array.mem_toList_iff.mpr (Array.mem_of_getElem? hk))
    exact List.mem_append_right _ (List.mem_flatten.mpr ⟨ns, hns, hin c p o hp ho hb⟩)

/-- The table once links are set: it keeps what holds of it, its places and its needs, and the
links are its parents beside those it had. -/
structure Linked (t : ScopeTree) (captured : VarId → Prop) (ps linked : PlanTable)
    (links : List (PlanId × PlanId)) : Prop where
  /-- The table can be linked further. -/
  linking : Linking t captured linked
  /-- Places stay. -/
  alike : Aligned ps linked
  /-- Bindings stay. -/
  bindings : linked.bindings = ps.bindings
  /-- Needs stay. -/
  needed : ∀ c, linked.neededBy c = ps.neededBy c
  /-- Parents stay. -/
  parent : ∀ p q, ps.parent? p = some q → linked.parent? p = some q
  /-- The links are parents. -/
  link : ∀ l ∈ links, linked.parent? l.1 = some l.2

/-- Links that are called for are set. -/
theorem Linking.linked (hl : Linking t captured ps) (h : t.WellBound holds)
    {links : List (PlanId × PlanId)} (hlinks : Called t ps links) :
    Linked t captured ps (links.foldl PlanTable.link ps) links := by
  obtain ⟨halike, hneeded, hbindings, hparent⟩ := foldl_link links ps
  generalize links.foldl PlanTable.link ps = linked at halike hneeded hbindings hparent
  have hneededBy (c : ClosureId) : linked.neededBy c = ps.neededBy c := by
    rw [neededBy, neededBy, hneeded]
  have hlt (p q : PlanId) (hp : linked.parent? p = some q) : p < ps.plans.size := by
    unfold parent? at hp
    obtain ⟨x, hx, -⟩ := Option.bind_eq_some_iff.mp hp
    rw [← halike.size]
    exact (Array.getElem?_eq_some_iff.mp hx).1
  have hparentOf (p q : PlanId) (hp : linked.parent? p = some q) :
      Nearest t ps p q ∧ Spanned t ps p q := by
    rw [hparent p (hlt p q hp)] at hp
    rcases parentAfter_eq_some hp with hold | hmem
    · exact ⟨hl.parent p q hold, hl.spanned p q hold⟩
    · exact hlinks.sound _ hmem
  -- a later link may overwrite a parent, but there is only one nearest plan
  have hset (p q : PlanId) (hn : Nearest t ps p q)
      (hp : (∃ r, ps.parent? p = some r) ∨ ∃ r, (p, r) ∈ links) : linked.parent? p = some q := by
    have hsize : p < ps.plans.size := by
      obtain ⟨s, o, hs, -⟩ := hn
      exact hs.lt_size
    obtain ⟨q', hq'⟩ := exists_parentAfter hp
    have hlp := (hparent p hsize).trans hq'
    rw [hlp, (hparentOf p q' hlp).1.unique hl.placed h.preorder hn]
  have hkeep (p q : PlanId) (hp : ps.parent? p = some q) : linked.parent? p = some q :=
    hset p q (hl.parent p q hp) (.inl ⟨q, hp⟩)
  refine ⟨?_, halike, hbindings, hneededBy, hkeep,
    fun l hmem => hset l.1 l.2 (hlinks.sound l hmem).1 (.inr ⟨l.2, hmem⟩)⟩
  exact
    { placed := halike.placed hl.placed
      parent := fun p q hp => halike.nearest_iff.mpr (hparentOf p q hp).1
      needed := fun c p hp => by
        obtain ⟨k, o, hk, ho, ha⟩ := hl.needed c p (hneededBy c ▸ hp)
        exact ⟨k, o, hk, halike.from_iff.mpr ho, ha⟩
      vars := fun c v p hn hv => by
        rw [halike.varPlan] at hv
        rw [hneededBy]
        exact hl.vars c v p hn hv
      cause := fun c p hp => (hl.cause c p (hneededBy c ▸ hp)).mono halike.varPlan
        (fun _ _ => halike.from_iff.mpr) hkeep
      spanned := fun p q hp =>
        (hparentOf p q hp).2.mono halike.varPlan fun _ _ => halike.from_iff.mpr }

/-- The table once needs are noted: it keeps what holds of it, its places and its parents, and the
needs are its own beside those it had. -/
structure Noted (t : ScopeTree) (captured : VarId → Prop) (ps next : PlanTable)
    (needs : List (ClosureId × PlanId)) : Prop where
  /-- The table can be linked further. -/
  linking : Linking t captured next
  /-- Places stay. -/
  alike : Aligned ps next
  /-- Bindings stay. -/
  bindings : next.bindings = ps.bindings
  /-- Parents stay. -/
  parent : ∀ p, next.parent? p = ps.parent? p
  /-- What is needed was needed, or is noted. -/
  needed : ∀ c p, p ∈ next.neededBy c ↔ p ∈ ps.neededBy c ∨ (c, p) ∈ needs

/-- Needs that are due are noted. -/
theorem Linking.noted (hl : Linking t captured ps) {needs : List (ClosureId × PlanId)}
    (hneeds : Due t ps needs) : Noted t captured ps (needs.foldl need ps) needs := by
  obtain ⟨hplans, hscopePlan, hvarPlan, hbindings, hmem⟩ := foldl_need needs ps
  generalize needs.foldl need ps = next at hplans hscopePlan hvarPlan hbindings hmem
  have halike : Aligned ps next := .of_plans hscopePlan hvarPlan hplans
  have hparent (p : PlanId) : next.parent? p = ps.parent? p := by rw [parent?, parent?, hplans]
  refine ⟨?_, halike, hbindings, hparent, hmem⟩
  exact
    { placed := halike.placed hl.placed
      parent := fun p q hp => halike.nearest_iff.mpr (hl.parent p q ((hparent p).symm.trans hp))
      needed := fun c p hp => by
        rcases (hmem c p).mp hp with hp | hp
        · obtain ⟨k, o, hk, ho, ha⟩ := hl.needed c p hp
          exact ⟨k, o, hk, halike.from_iff.mpr ho, ha⟩
        · obtain ⟨k, o, hk, ho, ha, -⟩ := hneeds.sound _ hp
          exact ⟨k, o, hk, halike.from_iff.mpr ho, ha⟩
      vars := fun c v p hn hv => by
        rw [halike.varPlan] at hv
        exact (hmem c p).mpr (.inl (hl.vars c v p hn hv))
      cause := fun c p hp => by
        have hcause : Caused t ps c p := by
          rcases (hmem c p).mp hp with hp | hp
          · exact hl.cause c p hp
          · obtain ⟨-, -, -, -, -, hcause⟩ := hneeds.sound _ hp
            exact hcause
        exact hcause.mono halike.varPlan (fun _ _ => halike.from_iff.mpr)
          fun p q hp => (hparent p).trans hp
      spanned := fun p q hp => (hl.spanned p q ((hparent p).symm.trans hp)).mono halike.varPlan
        fun _ _ => halike.from_iff.mpr }

/-- A round whose links were parents and whose needs were needs before finds the table linked in
full: it is the links and the needs of that table. -/
theorem Called.closed {linked next : PlanTable} {links : List (PlanId × PlanId)}
    {needs : List (ClosureId × PlanId)} (hlinks : Called t ps links) (hneeds : Due t linked needs)
    (hlinked : Linked t captured ps linked links) (hnext : Noted t captured linked next needs)
    (hold : ∀ n ∈ needs, n.2 ∈ linked.neededBy n.1) : Closed t next := by
  have halike : Aligned ps next := hlinked.alike.trans hnext.alike
  have hback (p : PlanId) (s : ScopeId) (hp : next.From p s) : linked.From p s :=
    hnext.alike.from_iff.mp hp
  have hsame (c : ClosureId) (p : PlanId) : p ∈ next.neededBy c ↔ p ∈ ps.neededBy c := by
    rw [hnext.needed, hlinked.needed]
    exact ⟨fun hp => hp.elim id fun hp => hlinked.needed c ▸ hold _ hp, .inl⟩
  constructor
  · intro c d p hc hd hp
    have hd' : IsInnermost t ps (ps.neededBy c) d := by
      obtain ⟨hdn, s, hs, hin⟩ := hd
      refine ⟨(hsame c d).mp hdn, s, halike.from_iff.mp hs, fun p o hp ho => ?_⟩
      exact hin p o ((hsame c p).mpr hp) (halike.from_iff.mpr ho)
    refine Relation.ReflTransGen.mono (fun a b hab => ?_) _ _
      (hlinks.path c d p hc hd' ((hsame c p).mp hp))
    exact (hnext.parent a).trans (hlinked.link (a, b) hab)
  · intro c p q s o hpq hs ho hb
    rw [hnext.parent] at hpq
    exact (hnext.needed c q).mpr
      (.inr (hneeds.parents c p q s o hpq (hback p s hs) (hback q o ho) hb))
  · intro c d k p o hk hp ho hb
    rw [hsame, ← hlinked.needed] at hp
    exact (hnext.needed c p).mpr (.inr (hneeds.closures c d k p o hk hp (hback p o ho) hb))

/-- One round: it keeps what holds of the table, sets the parents that closures call for, and notes
what they have to carry. -/
structure Round (t : ScopeTree) (captured : VarId → Prop) (ps next : PlanTable) (changed : Bool) :
    Prop where
  /-- The table can be linked further. -/
  linking : Linking t captured next
  /-- Places stay. -/
  alike : Aligned ps next
  /-- Bindings stay. -/
  bindings : next.bindings = ps.bindings
  /-- Parents stay. -/
  parent : ∀ p q, ps.parent? p = some q → next.parent? p = some q
  /-- Needs stay. -/
  needed : ∀ c p, p ∈ ps.neededBy c → p ∈ next.neededBy c
  /-- A change is a new parent or a new need. -/
  change : changed = true → (∃ p q, ps.parent? p = none ∧ next.parent? p = some q) ∨
    ∃ c p, c < t.closures.size ∧ p < ps.plans.size ∧ p ∉ ps.neededBy c ∧ p ∈ next.neededBy c
  /-- Without a change all is linked. -/
  closed : changed = false → Closed t next

/-- A round changes something if a link is not the parent yet or a need is not noted yet. -/
theorem changed_iff {ps linked : PlanTable} {links : List (PlanId × PlanId)}
    {needs : List (ClosureId × PlanId)} :
    (links.any (fun l => !ps.isLinked l) || needs.any fun n => !linked.isNeeded n) = true ↔
      (∃ l ∈ links, ps.parent? l.1 ≠ some l.2) ∨ ∃ n ∈ needs, n.2 ∉ linked.neededBy n.1 := by
  simp [isLinked, isNeeded, parent?]

/-- A round of linking. -/
theorem Linking.linkRound_spec (hl : Linking t captured ps) (h : t.WellBound holds) :
    ∃ next changed, ps.linkRound t = .ok (next, changed) ∧ Round t captured ps next changed := by
  obtain ⟨lss, hlss, hlinks⟩ := hl.exists_links h
  have hlinked := hl.linked h hlinks
  generalize hset : lss.flatten.foldl link ps = linked at hlinked
  -- the needs are those of the table that has the new parents
  obtain ⟨ns₁, ns₂, hns₁, hns₂, hneeds⟩ := hlinked.linking.exists_due h
  have hnext := hlinked.linking.noted hneeds
  generalize hnoted : (ns₁.flatten ++ ns₂.flatten).foldl need linked = next at hnext
  have hrun : ps.linkRound t = .ok (next,
      lss.flatten.any (fun l => !ps.isLinked l) ||
        (ns₁.flatten ++ ns₂.flatten).any fun n => !linked.isNeeded n) := by
    unfold linkRound
    rw [hlss, Lower.ok_bind]
    dsimp only
    rw [hset, hns₁, Lower.ok_bind, hns₂, Lower.ok_bind, hnoted]
    rfl
  refine ⟨_, _, hrun, hnext.linking, hlinked.alike.trans hnext.alike,
    hnext.bindings.trans hlinked.bindings, fun p q hp => (hnext.parent p).trans
      (hlinked.parent p q hp), fun c p hp => ?_, fun hchanged => ?_, fun hchanged => ?_⟩
  · exact (hnext.needed c p).mpr (.inl (hlinked.needed c ▸ hp))
  · rcases changed_iff.mp hchanged with ⟨l, hlm, hno⟩ | ⟨n, hnm, hno⟩
    · left
      refine ⟨l.1, l.2, ?_, (hnext.parent _).trans (hlinked.link l hlm)⟩
      cases hp : ps.parent? l.1 with
      | none => rfl
      | some q =>
        have heq := (hl.parent _ _ hp).unique hl.placed h.preorder (hlinks.sound l hlm).1
        exact absurd (heq ▸ hp) hno
    · right
      obtain ⟨k, o, hk, ho, -⟩ := hneeds.sound n hnm
      refine ⟨n.1, n.2, (Array.getElem?_eq_some_iff.mp hk).1, ?_, ?_,
        (hnext.needed _ _).mpr (.inr hnm)⟩
      · rw [← hlinked.alike.size]
        exact ho.lt_size
      · rwa [← hlinked.needed]
  · refine hlinks.closed hneeds hlinked hnext fun n hn => by_contra fun hno => ?_
    cases hchanged.symm.trans (changed_iff.mpr (.inr ⟨n, hn, hno⟩))

end ClosureEnv.PlanTable
