import ClosureEnv.Proofs.Plan.Homes
import ClosureEnv.Proofs.Plan.Exact

/-!
# Plans as the tree tells them

Plans are linked round by round, and marked as on the heap along their links. What comes of it can
be told without any of the rounds, from where the captured variables are at home:
`ScopeTree.LinksTo` says which environments are linked, `ScopeTree.BindsTo` which one a closure
gets, and `ScopeTree.OnHeap` which ones are on the heap. All of them speak of scopes, so that they
can be carried from one tree to another in which the plans have other numbers (`PlanTable.Told`).
-/

namespace ClosureEnv

namespace ScopeTree

variable (t : ScopeTree) (merge : MergePolicy)

/-- There is an environment for the scope. -/
def HasEnv (s : ScopeId) : Prop :=
  ∃ v, t.HeldAt merge v s

/-- Of the scopes around `s` that there is an environment for, `o` is the next one. -/
structure NextEnv (s o : ScopeId) : Prop where
  inner : t.HasEnv merge s
  outer : t.HasEnv merge o
  around : Around t.scopes o s
  nearest : ∀ z, t.HasEnv merge z → Around t.scopes z s → AroundEq t.scopes z o

/-- A closure needs a variable that is held inside of `s`, and one that is held outside of `o`. -/
def Spans (s o : ScopeId) : Prop :=
  ∃ c u z v y, t.Needs c u ∧ t.HeldAt merge u z ∧ AroundEq t.scopes s z ∧
    t.Needs c v ∧ t.HeldAt merge v y ∧ AroundEq t.scopes y o

/-- The environment for `s` refers to the one for `o`. -/
def LinksTo (s o : ScopeId) : Prop :=
  t.NextEnv merge s o ∧ t.Spans merge s o

/-- The closure needs the environment for `o`: for a variable in it, or to hand it on to an
environment that is made inside of the closure. -/
def NeedsEnv (c : ClosureId) (o : ScopeId) : Prop :=
  (∃ v, t.Needs c v ∧ t.HeldAt merge v o) ∨
    ∃ s k, t.LinksTo merge s o ∧ t.closures[c]? = some k ∧ AroundEq t.scopes k.scope s ∧
      Around t.scopes o k.scope

/-- The closure gets the environment for `o`: the innermost one that it needs. -/
def BindsTo (c : ClosureId) (o : ScopeId) : Prop :=
  t.NeedsEnv merge c o ∧ ∀ o', t.NeedsEnv merge c o' → AroundEq t.scopes o' o

/-- The environment for the scope is on the heap. -/
inductive OnHeap : ScopeId → Prop where
  /-- A variable of the scope outlives it. -/
  | outlives {s : ScopeId} : t.HasEnv merge s → t.Outlives s → OnHeap s
  /-- An escaping closure has the environment. -/
  | escaping {c : ClosureId} {s : ScopeId} : t.Escaping c → t.BindsTo merge c s → OnHeap s
  /-- An environment on the heap refers to it. -/
  | link {s o : ScopeId} : OnHeap s → t.LinksTo merge s o → OnHeap o

/-- A closure that needs nothing uses a type parameter of the function. -/
def HasGeneric (name : String) : Prop :=
  ∃ c k f, t.closures[c]? = some k ∧ (∀ v, ¬ t.Needs c v) ∧ t.fns[k.owner]? = some f ∧
    f.name = name ∧ f.isGeneric = true ∧ PlanTable.usesTypeParam t k = true

end ScopeTree

namespace PlanTable

variable {t : ScopeTree} {holds : VarId → ClosureId → Prop} {merge : MergePolicy} {ps : PlanTable}

/-- The plans have the captured variables of a tree where they are at home. -/
structure Homed (t : ScopeTree) (merge : MergePolicy) (ps : PlanTable) : Prop where
  held : ∀ v o, t.HeldAt merge v o ↔ ∃ p, ps.varPlan.find? v = some p ∧ ps.From p o
  /-- A plan has some variable. -/
  holds : ∀ p s, ps.From p s → ∃ v, ps.varPlan.find? v = some p

/-- The plans of candidates have their variables. -/
theorem Made.homed {captured : VarId → Prop} {cs : Candidates} (hm : Made t cs ps)
    (hs : Candidates.Sound t captured cs) (hc : cs.Homed t merge) : Homed t merge ps := by
  constructor
  · intro v o
    rw [← hc.slot]
    constructor
    · rintro ⟨c, hf, hv⟩
      obtain ⟨p, hp⟩ := List.mem_iff_getElem?.mp (hs.sorted.mem_iff.mpr hf)
      exact ⟨p, (hm.var_plan v p).mpr ⟨_, hp, hv⟩, hm.from_iff.mpr ⟨c, hp⟩⟩
    · rintro ⟨p, hp, hfrom⟩
      obtain ⟨e, he, hv⟩ := (hm.var_plan v p).mp hp
      obtain ⟨c, hc'⟩ := hm.from_iff.mp hfrom
      cases he.symm.trans hc'
      exact ⟨c, hs.sorted.mem_iff.mp (List.mem_of_getElem? he), hv⟩
  · intro p s hp
    obtain ⟨c, hc'⟩ := hm.from_iff.mp hp
    obtain ⟨v, hv, -⟩ := hs.own s c (hs.sorted.mem_iff.mp (List.mem_of_getElem? hc'))
    exact ⟨v, (hm.var_plan v p).mpr ⟨_, hc', hv⟩⟩

/-- Tables that differ in parents only have their variables at the same places. -/
theorem Alike.homed {ps' : PlanTable} (ha : Alike ps ps') (h : Homed t merge ps) :
    Homed t merge ps' := by
  refine ⟨fun v o => ?_, fun p s hp => ?_⟩
  · simp only [ha.varPlan, ha.from_iff, h.held]
  · rw [ha.varPlan]
    exact h.holds p s (ha.from_iff.mp hp)

/-- Empty plans hold nothing, so the variables are at the same places with them. -/
theorem Extends.homed {ps' : PlanTable} (he : Extends t ps ps') (h : Homed t merge ps) :
    Homed t merge ps' := by
  refine ⟨fun v o => ?_, fun p s hp => ?_⟩
  · simp only [he.varPlan, he.from_iff, h.held]
  · rw [he.varPlan]
    exact h.holds p s (he.from_iff.mp hp)

/-- The plan says that its environment is on the heap as soon as a variable of its scope is used for
longer. -/
theorem Made.repr_iff {captured : VarId → Prop} {cs : Candidates} (hm : Made t cs ps)
    (hs : Candidates.Sound t captured cs) (hc : cs.Homed t merge) {p : Nat} {s : ScopeId}
    (hp : ps.From p s) : ps.plans[p]?.map Plan.repr = some .reference ↔ t.Outlives s := by
  obtain ⟨c, hc'⟩ := hm.from_iff.mp hp
  rw [hm.plan, hc', ← hc.repr s c (hs.sorted.mem_iff.mp (List.mem_of_getElem? hc'))]
  simp [ofCandidate]

namespace Homed

variable (hh : Homed t merge ps)
include hh

/-- There is an environment for a scope if a plan comes from it. -/
theorem hasEnv_iff {s : ScopeId} : t.HasEnv merge s ↔ ∃ p, ps.From p s := by
  constructor
  · rintro ⟨v, hv⟩
    obtain ⟨p, -, hp⟩ := (hh.held v s).mp hv
    exact ⟨p, hp⟩
  · rintro ⟨p, hp⟩
    obtain ⟨v, hv⟩ := hh.holds p s hp
    exact ⟨v, (hh.held v s).mpr ⟨p, hv, hp⟩⟩

/-- A plan has slots for the variables that are held at its scope. -/
theorem mem_slots_iff {captured : VarId → Prop} (hplaced : Placed t captured ps) {p : Nat}
    {x : Plan} {s : ScopeId} {v : VarId} (hx : ps.plans[p]? = some x) (ho : x.origin = some s) :
    v ∈ x.slots ↔ t.HeldAt merge v s := by
  have hp : ps.From p s := ⟨x, hx, ho⟩
  rw [hh.held]
  constructor
  · intro hv
    obtain ⟨-, hvp, -⟩ := hplaced.slot p x v hx hv
    exact ⟨p, hvp, hp⟩
  · rintro ⟨q, hvq, hq⟩
    cases hplaced.from_inj hp hq
    obtain ⟨y, hy, hvy⟩ := hplaced.var_plan v p hvq
    cases hx.symm.trans hy
    exact hvy

/-- The nearest plan comes from the next scope with an environment. -/
theorem nearest_iff {p q : PlanId} {s o : ScopeId} (hp : ps.From p s) (hq : ps.From q o) :
    Nearest t ps p q ↔ t.NextEnv merge s o := by
  constructor
  · rintro ⟨s', o', hp', hq', ha, hnear⟩
    cases hp.unique hp'
    cases hq.unique hq'
    refine ⟨hh.hasEnv_iff.mpr ⟨p, hp⟩, hh.hasEnv_iff.mpr ⟨q, hq⟩, ha, fun z hz hzs => ?_⟩
    obtain ⟨r, hr⟩ := hh.hasEnv_iff.mp hz
    exact hnear r z hr hzs
  · intro hn
    exact ⟨s, o, hp, hq, hn.around, fun r z hr hz => hn.nearest z (hh.hasEnv_iff.mpr ⟨r, hr⟩) hz⟩

/-- What calls for a link between plans calls for one between the environments. -/
theorem spanned_iff {p q : PlanId} {s o : ScopeId} (hp : ps.From p s) (hq : ps.From q o) :
    Spanned t ps p q ↔ t.Spans merge s o := by
  constructor
  · rintro ⟨c, s', o', hp', hq', ⟨u, d, z, hu, hud, hz, hsz⟩, v, r, y, hv, hvr, hy, hyo⟩
    cases hp.unique hp'
    cases hq.unique hq'
    exact ⟨c, u, z, v, y, hu, (hh.held u z).mpr ⟨d, hud, hz⟩, hsz, hv,
      (hh.held v y).mpr ⟨r, hvr, hy⟩, hyo⟩
  · rintro ⟨c, u, z, v, y, hu, huz, hsz, hv, hvy, hyo⟩
    obtain ⟨d, hud, hz⟩ := (hh.held u z).mp huz
    obtain ⟨r, hvr, hy⟩ := (hh.held v y).mp hvy
    exact ⟨c, s, o, hp, hq, ⟨u, d, z, hu, hud, hz, hsz⟩, v, r, y, hv, hvr, hy, hyo⟩

end Homed

namespace Bound

variable (hb : Bound t t.Captured ps) (h : t.WellBound holds)
include hb h

/-- The plans on the way from the environment of a closure to a variable it needs are linked. -/
theorem exists_walk {c : ClosureId} {v : VarId} {r : PlanId} (hn : t.Needs c v)
    (hv : ps.varPlan.find? v = some r) :
    ∃ d way, IsInnermost t ps (ps.neededBy c) d ∧ Walk ps d way r := by
  obtain ⟨k, -, hk, -⟩ := h.exists_of_needs hn
  have hr := hb.linking.vars c v r hn hv
  obtain ⟨b, hcb⟩ := hb.bound c r hr
  obtain ⟨d, rfl, hd⟩ := hb.direct c b hcb
  obtain ⟨way, hway⟩ := Walk.exists_of_chain
    (hb.closed.chain c d r (Array.getElem?_eq_some_iff.mp hk).1 hd hr)
  exact ⟨d, way, hd, hway⟩

/-- A plan is linked to the nearest one as soon as some closure calls for it. -/
theorem parent?_of_spanned {p q : PlanId} (hn : Nearest t ps p q) (hs : Spanned t ps p q) :
    ps.parent? p = some q := by
  obtain ⟨c, s, o, hps, hqo, ⟨u, e, z, hu, hue, hez, hsz⟩, v, r, y, hv, hvr, hy, hyo⟩ := hs
  obtain ⟨d, way, ⟨-, x, hx, hin⟩, hway⟩ := hb.exists_walk h hv hvr
  obtain ⟨s', o', hs', ho', hos, -⟩ := id hn
  cases hps.unique hs'
  cases hqo.unique ho'
  have hys := hyo.trans_around h.preorder hos
  -- the scope of the plan lies between those of the ends of the way
  obtain ⟨front, back, rfl, -, hback⟩ := hb.linking.walk_through h.preorder hway hx hy hps
    (.inr hys) (hsz.trans h.preorder (hin e z (hb.linking.vars c u e hu hue) hez))
  cases hback with
  | here =>
    cases hps.unique hy
    exact absurd hys (Around.irrefl h.preorder)
  | @up _ q' _ back hq' =>
    rw [hn.unique hb.linking.placed h.preorder (hb.linking.parent p q' hq')]
    exact hq'

/-- Closures that need nothing are those that are not bound. -/
theorem bindings_eq_none_iff {c : ClosureId} :
    ps.bindings.find? c = none ↔ ∀ v, ¬ t.Needs c v := by
  constructor
  · intro hno v hn
    obtain ⟨r, hr⟩ := hb.linking.placed.covered v ⟨c, hn⟩
    obtain ⟨b, hcb⟩ := hb.bound c r (hb.linking.vars c v r hn hr)
    rw [hno] at hcb
    cases hcb
  · intro hno
    cases hcb : ps.bindings.find? c with
    | none => rfl
    | some b =>
      obtain ⟨d, -, hd, -⟩ := hb.direct c b hcb
      obtain ⟨k, o, -, ho, -⟩ := hb.linking.needed c d hd
      obtain ⟨v, -, -, hn, -⟩ := hb.linking.reaching h hd ho
      exact absurd hn (hno v)

variable (hh : Homed t merge ps)
include hh

/-- Plans are linked as the environments of their scopes are. -/
theorem parent?_iff {p q : PlanId} {s o : ScopeId} (hp : ps.From p s) (hq : ps.From q o) :
    ps.parent? p = some q ↔ t.LinksTo merge s o := by
  rw [ScopeTree.LinksTo, ← hh.nearest_iff hp hq, ← hh.spanned_iff hp hq]
  constructor
  · exact fun hpq => ⟨hb.linking.parent p q hpq, hb.linking.spanned p q hpq⟩
  · rintro ⟨hn, hs⟩
    exact hb.parent?_of_spanned h hn hs

/-- Closures need the plans of the environments that they need. -/
theorem mem_neededBy_iff {c : ClosureId} {q : PlanId} {o : ScopeId} (hq : ps.From q o) :
    q ∈ ps.neededBy c ↔ t.NeedsEnv merge c o := by
  constructor
  · intro hneed
    rcases hb.linking.cause c q hneed with ⟨v, hn, hv⟩ | ⟨p, s, o', hpq, hp, hq', hbetween⟩
    · exact .inl ⟨v, hn, (hh.held v o).mpr ⟨q, hv, hq⟩⟩
    · cases hq.unique hq'
      obtain ⟨k, hk, hks, hok⟩ := hbetween
      exact .inr ⟨s, k, (hb.parent?_iff h hh hp hq).mp hpq, hk, hks, hok⟩
  · rintro (⟨v, hn, hv⟩ | ⟨s, k, hl, hk, hks, hok⟩)
    · obtain ⟨q', hv, hq'⟩ := (hh.held v o).mp hv
      cases hb.linking.placed.from_inj hq hq'
      exact hb.linking.vars c v q hn hv
    · obtain ⟨p, hp⟩ := hh.hasEnv_iff.mp hl.1.inner
      exact hb.closed.parents c p q s o ((hb.parent?_iff h hh hp hq).mpr hl) hp hq ⟨k, hk, hks, hok⟩

/-- The innermost plan that a closure needs is that of the environment that it gets. -/
theorem isInnermost_iff {c : ClosureId} {d : PlanId} {o : ScopeId} (hd : ps.From d o) :
    IsInnermost t ps (ps.neededBy c) d ↔ t.BindsTo merge c o := by
  constructor
  · rintro ⟨hneed, o', ho', hin⟩
    cases hd.unique ho'
    refine ⟨(hb.mem_neededBy_iff h hh hd).mp hneed, fun z hz => ?_⟩
    obtain ⟨p, hp⟩ : ∃ p, ps.From p z := by
      rcases hz with ⟨v, -, hv⟩ | ⟨s, k, hl, -⟩
      · exact hh.hasEnv_iff.mp ⟨v, hv⟩
      · exact hh.hasEnv_iff.mp hl.1.outer
    exact hin p z ((hb.mem_neededBy_iff h hh hp).mpr hz) hp
  · rintro ⟨hneed, hin⟩
    exact ⟨(hb.mem_neededBy_iff h hh hd).mpr hneed, o, hd, fun p z hp hz =>
      hin z ((hb.mem_neededBy_iff h hh hz).mp hp)⟩

/-- A closure gets the environment of the plan that it is bound to. -/
theorem bindings_iff {c : ClosureId} {d : PlanId} {o : ScopeId} (hd : ps.From d o) :
    ps.bindings.find? c = some (.direct d) ↔ t.BindsTo merge c o := by
  rw [← hb.isInnermost_iff h hh hd]
  constructor
  · intro hcb
    obtain ⟨d', heq, hd'⟩ := hb.direct c _ hcb
    cases heq
    exact hd'
  · intro hin
    obtain ⟨b, hcb⟩ := hb.bound c d hin.1
    obtain ⟨d', rfl, -, s', hs', hin'⟩ := hb.direct c b hcb
    obtain ⟨hneed, s, hs, hin⟩ := hin
    obtain ⟨d'', heq, hneed', -⟩ := hb.direct c _ hcb
    cases heq
    cases AroundEq.antisymm h.preorder (hin' d s hneed hs) (hin d' s' hneed' hs')
    cases hb.linking.placed.from_inj hs hs'
    exact hcb

/-- The environments on the heap are those that the tree tells. -/
theorem inHeap_iff (hrepr : ∀ (p : Nat) s, ps.From p s →
    (ps.plans[p]?.map Plan.repr = some .reference ↔ t.Outlives s)) {p : PlanId} {s : ScopeId}
    (hp : ps.From p s) : InHeap t ps p ↔ t.OnHeap merge s := by
  constructor
  · intro hheap
    induction hheap generalizing s with
    | @stated p x hx hr =>
      exact .outlives (hh.hasEnv_iff.mpr ⟨p, hp⟩) ((hrepr p s hp).mp (by rw [hx]; simp [hr]))
    | escaping he hcb => exact .escaping he ((hb.bindings_iff h hh hp).mp hcb)
    | @parent p q _ hpq ih =>
      obtain ⟨s', o', hs', ho', -⟩ := hb.linking.parent p q hpq
      cases hp.unique ho'
      exact .link (ih hs') ((hb.parent?_iff h hh hs' hp).mp hpq)
  · intro hheap
    induction hheap generalizing p with
    | outlives henv hout =>
      obtain ⟨x, hx, hr⟩ := Option.map_eq_some_iff.mp ((hrepr p _ hp).mpr hout)
      exact .stated hx hr
    | escaping he hbind => exact .escaping he ((hb.bindings_iff h hh hp).mpr hbind)
    | link _ hl ih =>
      obtain ⟨p', hp'⟩ := hh.hasEnv_iff.mp hl.1.inner
      exact .parent (ih hp') ((hb.parent?_iff h hh hp' hp).mpr hl)

end Bound

/-- Plans of scopes are on the heap with the empty plans as they are without. -/
theorem Extends.onHeap_iff {ps' : PlanTable} (he : Extends t ps ps') {p : PlanId}
    {s : ScopeId} (hps : ps.From p s) : ps'.OnHeap p ↔ ps.OnHeap p := by
  refine ⟨fun ⟨x, hx, hr⟩ => ?_, he.onHeap⟩
  obtain ⟨y, hy, -⟩ := hps
  cases hx.symm.trans (he.old p y hy)
  exact ⟨x, hy, hr⟩

/-- The plan of a function whose closures need nothing is empty. -/
theorem Sound.isEmpty_of_generic (h : ps.Sound t) {p : Nat} {x : Plan} {name : String}
    (hx : ps.plans[p]? = some x) (hid : x.identity = .staticGeneric name) : IsEmpty t x := by
  cases hxo : x.origin with
  | none => exact h.empty p x hx hxo
  | some s =>
    obtain ⟨-, sc, -, hid'⟩ := h.linking.placed.origin p x s hx hxo
    rw [hid] at hid'
    cases hid'

/-- The plans are those that the tree tells. -/
structure Told (t : ScopeTree) (merge : MergePolicy) (ps : PlanTable) : Prop where
  env : ∀ s, t.HasEnv merge s ↔ ∃ p, ps.From p s
  slot : ∀ (p : Nat) x s v, ps.plans[p]? = some x → x.origin = some s →
    (v ∈ x.slots ↔ t.HeldAt merge v s)
  link : ∀ p q s o, ps.From p s → ps.From q o → (ps.parent? p = some q ↔ t.LinksTo merge s o)
  heap : ∀ p s, ps.From p s → (ps.OnHeap p ↔ t.OnHeap merge s)
  generic : ∀ name, (∃ (p : Nat) (x : Plan), ps.plans[p]? = some x ∧
    x.identity = .staticGeneric name) ↔ t.HasGeneric name

end PlanTable

namespace Planning

variable {t : ScopeTree} {holds : VarId → ClosureId → Prop} {a : Captures} {merge : MergePolicy}
  {single cs : Candidates} {start linked ps : PlanTable}
  (hp : Planning t a merge single cs start linked ps) (h : t.WellBound holds)
include hp h

/-- The candidates at the end have the captured variables where they are at home. -/
theorem candidates_homed (ha : a.Traced t) : cs.Homed t merge := by
  have hsingle := Candidates.ofCaptures_homed h ha hp.ofCaptures hp.single_sound hp.single_merged
  cases hm : merge with
  | never => exact hp.never hm ▸ hsingle
  | contained =>
    exact Candidates.mergeContained_homed h ha hsingle hp.single_sound (hp.contained hm)

/-- The functions with an empty environment of their own are those that the tree tells. -/
theorem generic_iff (name : String) : (∃ (p : Nat) (x : Plan), ps.plans[p]? = some x ∧
    x.identity = .staticGeneric name) ↔ t.HasGeneric name := by
  obtain ⟨closures, done, hserved, -, hdone⟩ := hp.served
  have hsound := hp.plans_sound h
  have hnone (c : ClosureId) : linked.bindings.find? c = none ↔ ∀ v, ¬ t.Needs c v :=
    hp.bound.bindings_eq_none_iff h
  constructor
  · rintro ⟨p, x, hx, hid⟩
    have hempty := hsound.isEmpty_of_generic hx hid
    obtain ⟨hdoneOwner, -⟩ := hserved.owner p x hx hempty.origin
    rcases hempty.kind with ⟨hid', -⟩ | ⟨f, fn, hf, hfn, hid', -⟩
    · rw [hid] at hid'
      cases hid'
    rw [hf] at hdoneOwner
    obtain ⟨c, k, hk, hno, hgen⟩ := (hdone f).mp hdoneOwner
    obtain ⟨rfl, hgeneric, huses⟩ := PlanTable.genericOwner?_eq_some.mp hgen
    rw [hid, EnvIdentity.staticGeneric.injEq] at hid'
    rw [hfn] at hgeneric
    exact ⟨c, k, fn, hk, (hnone c).mp hno, hfn, hid'.symm, hgeneric, huses⟩
  · rintro ⟨c, k, fn, hk, hno, hfn, rfl, hgeneric, huses⟩
    have hgen : PlanTable.genericOwner? t k = some k.owner :=
      PlanTable.genericOwner?_eq_some.mpr ⟨rfl, by rw [hfn]; exact hgeneric, huses⟩
    obtain ⟨p, x, hx, hxo, hxf⟩ := hserved.made _
      ((hdone k.owner).mpr ⟨c, k, hk, (hnone c).mpr hno, hgen⟩)
    refine ⟨p, x, hx, ?_⟩
    rcases (hsound.empty p x hx hxo).kind with ⟨-, hsing⟩ | ⟨f, fn', hf, hfn', hid, -⟩
    · rw [(hserved.owner p x hx hxo).2.mpr hsing] at hxf
      cases hxf
    · cases hxf.symm.trans hf
      cases hfn.symm.trans hfn'
      exact hid

/-- The plans at the end are those that the tree tells. -/
theorem told (ha : a.Traced t) : PlanTable.Told t merge ps := by
  have hcs := hp.candidates_homed h ha
  have hlinked := hp.aligned.toAlike.homed (hp.made.homed hp.sound hcs)
  have hrepr (p : Nat) (s : ScopeId) (hfrom : linked.From p s) :
      linked.plans[p]?.map Plan.repr = some .reference ↔ t.Outlives s := by
    rw [hp.aligned.reprs]
    exact hp.made.repr_iff hp.sound hcs (hp.aligned.from_iff.mp hfrom)
  obtain ⟨closures, done, hserved, -⟩ := hp.served
  have hlike := PlanTable.alike_assignRepresentations t linked
  have hhomed := hserved.ext.homed (hlike.homed hlinked)
  have hfrom {p : PlanId} {s : ScopeId} : ps.From p s ↔ linked.From p s :=
    hserved.ext.from_iff.trans hlike.from_iff
  refine ⟨fun s => hhomed.hasEnv_iff,
    fun p x s v => hhomed.mem_slots_iff (hp.plans_sound h).linking.placed,
    fun p q s o hps hqo => ?_, fun p s hps => ?_, hp.generic_iff h⟩
  · rw [hserved.ext.parent?_iff, PlanTable.parent?_assignRepresentations]
    exact hp.bound.parent?_iff h hlinked (hfrom.mp hps) (hfrom.mp hqo)
  · rw [hserved.ext.onHeap_iff (hserved.ext.from_iff.mp hps),
      hp.bound.onHeap_iff_inHeap h, hp.bound.inHeap_iff h hlinked hrepr (hfrom.mp hps)]

end Planning

/-- Planning the environments of a bound tree succeeds with the plans that the tree tells. -/
theorem planEnvironments_told {t : ScopeTree} {holds : VarId → ClosureId → Prop}
    (h : t.WellBound holds) (options : LowerOptions) : ∃ a ps, Captures.analyze t = .ok a ∧
      planEnvironments t a options = .ok ps ∧ ps.Sound t ∧ ps.Told t options.merge := by
  obtain ⟨a, ha, htraced⟩ := Captures.analyze_traced h
  obtain ⟨ps, hps, single, cs, start, linked, hp⟩ := exists_planning h (htraced.sound h) options
  exact ⟨a, ps, ha, hps, hp.plans_sound h, hp.told h htraced⟩

end ClosureEnv
