import ClosureEnv.Proofs.Lasting.World
import ClosureEnv.Proofs.Plan.Walk

/-!
# Frames beside environments in sight

In the body of a function or of a closure the machine finds every environment that is in sight:
those entered in the body by their names, and the others by way of parents from the one that the
lambda was made with (`Framed.resolve`). That one is still there: it is on the heap, or entered in a
frame that waits for this one.
-/

namespace ClosureEnv.Run.Lasting

open Lowered (Scheme Inside)

variable {holds : VarId → ClosureId → Prop} {r : Scheme} {cx : Inside} {m : Machine} {s : Store}
  {inside : ScopeId → Prop}

/-- A scope in the body that is lowered. -/
structure InBody (r : Scheme) (cx : Inside) (scope : ScopeId) : Prop where
  /-- The scope belongs to the body. -/
  body : r.tree.BodyAt cx.scope scope
  /-- The environment of the body is that of its closure. -/
  param : ∀ d, cx.envParam = some d → ∃ c k, r.tree.closures[c]? = some k ∧ k.scope = cx.scope ∧
    r.plans.bindings.find? c = some (.direct d)

/-- The environment of the body is from around it, and kept if it is not on the heap. -/
theorem InBody.param_from (hr : r.Sound holds) {scope : ScopeId} (h : InBody r cx scope)
    {d : PlanId} (hd : cx.envParam = some d) :
    ∃ o, r.plans.From d o ∧ Around r.tree.scopes o cx.scope ∧
      (¬ r.plans.OnHeap d → r.tree.NoneEscape o cx.scope) := by
  obtain ⟨c, k, hk, hkc, hbind⟩ := h.param d hd
  obtain ⟨k', o, hk', hdo, hok⟩ := hr.plans.linking.needed c d
    (hr.plans.isInnermost_of_direct hbind).1
  cases hk.symm.trans hk'
  rw [← hkc]
  exact ⟨o, hdo, hok, hr.plans.noneEscape_of_direct hr.bound hk hbind hdo⟩

/-- The environments around a scope that are not on the heap, and that no escaping closure keeps,
are in some frames. -/
def Alive (r : Scheme) (frames : List Frame) (scope : ScopeId) (σ : Sight) : Prop :=
  ∀ p o a, r.plans.From p o → Around r.tree.scopes o scope → ¬ r.plans.OnHeap p →
    r.tree.NoneEscape o scope → σ.find? p = some a → ∃ f ∈ frames, a ∈ f.envs.map Prod.snd

/-- A frame of a machine where the environments of some scopes are in sight. -/
structure Framed (r : Scheme) (cx : Inside) (inside : ScopeId → Prop) (m : Machine) (s : Store) :
    Prop where
  /-- The environments are in sight. -/
  covers : Covers r.tree r.plans s.heap inside s.sight
  /-- The variables that are in no environment are the same. -/
  locals : ∀ v, Option.Rel (Same r) (m.frame.locals.find? v) (s.locals.find? v)
  /-- The environments that were entered in the body are found by their names. -/
  entered : ∀ p o, r.plans.From p o → inside o → AroundEq r.tree.scopes cx.scope o →
    m.frame.envs.find? (Name.envLocal p) = s.sight.find? p
  /-- The environment of the lambda is in sight. -/
  param : ∀ d, cx.envParam = some d → ∃ a, s.sight.find? d = some a ∧
    m.frame.envParam = some (handleOf r.plans d a)
  /-- Environments from around the body are on the heap or in a frame that waits. -/
  outer : Alive r m.callers cx.scope s.sight

/-! ## Finding environments -/

/-- A handle of an environment that is on the heap or in a frame that waits can be followed. -/
theorem follow_handleOf {ps : PlanTable} {d : PlanId} {a : Addr}
    (h : ¬ ps.OnHeap d → ∃ f ∈ m.callers, a ∈ f.envs.map Prod.snd) :
    m.follow (handleOf ps d a) = .ok a := by
  unfold handleOf
  split
  · next hv =>
    obtain ⟨x, hx, hxr⟩ := Option.map_eq_some_iff.mp hv
    obtain ⟨f, hf, ha⟩ := h fun ⟨y, hy, hyr⟩ => by
      cases hx.symm.trans hy
      rw [hyr] at hxr
      cases hxr
    have hthere : m.isThere a = true := Machine.isThere_of_mem_owned (List.mem_cons_of_mem _ hf)
      (List.mem_append_left _ (List.mem_append_left _ (List.mem_append_left _ ha)))
    exact if_pos hthere
  all_goals rfl

namespace Framed

/-- The environment of an entered scope is found by its name. -/
theorem isEntered_iff (hr : r.Sound holds) {scope : ScopeId} (hb : InBody r cx scope) {p : PlanId}
    {x : Plan} {o : ScopeId} (hp : r.plans.plans[p]? = some x) (ho : x.origin = some o)
    (hos : AroundEq r.tree.scopes o scope) {b : Bool} (hrun : r.isEntered cx x = .ok b) :
    b = true ↔ AroundEq r.tree.scopes cx.scope o := by
  have hpre := hr.bound.preorder
  obtain ⟨sc, hsc⟩ := hr.plans.linking.placed.exists_scope ⟨x, hp, ho⟩
  have hsize : o < r.tree.scopes.size := (Array.getElem?_eq_some_iff.mp hsc).1
  obtain ⟨z, hz, hat⟩ := hr.bound.bodyOf_spec hsize
  unfold Lowered.Scheme.isEntered at hrun
  rw [ho] at hrun
  dsimp only at hrun
  rw [hz, Lower.ok_bind, Lower.pure_eq_ok] at hrun
  subst hrun
  rw [beq_iff_eq]
  constructor
  · rintro rfl
    exact hat.aroundEq
  · exact fun hco => hat.unique hpre (hb.body.of_aroundEq hpre hco hos)

/-- The parents on the way from an environment in sight to another lead there. -/
theorem walk (hr : r.Sound holds) (hw : World holds r m s) (hf : Framed r cx inside m s)
    (hout : ∀ o, Around r.tree.scopes o cx.scope → inside o) {p goal : PlanId} {way : List PlanId}
    (h : PlanTable.Walk r.plans p way goal) {β : Type} :
    ∀ {o : ScopeId} {a : Addr} {names : List β}, r.plans.From p o →
      Around r.tree.scopes o cx.scope → s.sight.find? p = some a → names.length = way.length →
      ∃ b, s.sight.find? goal = some b ∧ names.foldlM (fun a _ => m.parentOf a) a = .ok b := by
  have hpre := hr.bound.preorder
  induction h with
  | here =>
    intro o a names _ _ ha hlen
    obtain rfl := List.length_eq_zero_iff.mp hlen
    exact ⟨a, ha, rfl⟩
  | @up p q _ _ hpq _ ih =>
    intro o a names hp ho ha hlen
    obtain ⟨o', z, hp', hqz, hzo, -⟩ := hr.plans.linking.parent p q hpq
    cases hp.unique hp'
    obtain ⟨a', i, ha', hi, hip, hsame⟩ := hf.covers p o hp (hout o ho)
    cases ha.symm.trans ha'
    -- The parent of the object is the environment of the parent's plan that is in sight here.
    obtain ⟨b, hb, hparent⟩ := (hw.objects a i hi).parent q (hip ▸ hpq)
    rw [hsame q z hqz (.inr hzo)] at hb
    have hparentOf : m.parentOf a = .ok b := by
      unfold Machine.parentOf
      rw [hparent]
      rfl
    obtain ⟨n, names, rfl⟩ := List.exists_cons_of_length_eq_add_one hlen
    obtain ⟨c, hc, hfold⟩ := ih hqz (hzo.trans hpre ho) hb (by simpa using hlen)
    refine ⟨c, hc, ?_⟩
    rw [List.foldlM_cons, hparentOf]
    exact hfold

/-- The environment of the lambda is from around the body, and its handle can be followed. -/
theorem follow_param (hr : r.Sound holds) {scope : ScopeId} (hb : InBody r cx scope)
    (hf : Framed r cx inside m s) {d : PlanId} (hd : cx.envParam = some d) :
    ∃ z a, r.plans.From d z ∧ Around r.tree.scopes z cx.scope ∧ s.sight.find? d = some a ∧
      m.frame.envParam = some (handleOf r.plans d a) ∧
      m.follow (handleOf r.plans d a) = .ok a := by
  obtain ⟨z, hdz, hzk, hnone⟩ := hb.param_from hr hd
  obtain ⟨a, ha, hparam⟩ := hf.param d hd
  exact ⟨z, a, hdz, hzk, ha, hparam,
    follow_handleOf fun hheap => hf.outer d z a hdz hzk hheap (hnone hheap) ha⟩

/-- Every environment in sight is found. -/
theorem resolve (hr : r.Sound holds) (hw : World holds r m s) {scope : ScopeId}
    (hb : InBody r cx scope) (hf : Framed r cx inside m s)
    (hin : ∀ o, inside o → AroundEq r.tree.scopes o scope)
    (hout : ∀ o, Around r.tree.scopes o cx.scope → inside o) {p : PlanId} {o : ScopeId}
    (hp : r.plans.From p o) (ho : inside o) {ref : Lowered.EnvRef}
    (href : r.envRef cx p = .ok ref) : ∃ a e, s.sight.find? p = some a ∧ m.resolve ref = .ok a ∧
      r.synthesis.envs[p]? = some e ∧ ref.env = e.name := by
  have hpre := hr.bound.preorder
  obtain ⟨a, i, ha, hi, hip, hsame⟩ := hf.covers p o hp ho
  unfold Lowered.Scheme.envRef at href
  obtain ⟨x, hx, href⟩ := Lower.bind_eq_ok.mp href
  obtain ⟨e, he, href⟩ := Lower.bind_eq_ok.mp href
  obtain ⟨b, hbe, href⟩ := Lower.bind_eq_ok.mp href
  have hx' := PlanTable.plan_eq_ok.mp hx
  have hox : x.origin = some o := by
    obtain ⟨y, hy, hyo⟩ := hp
    cases hx'.symm.trans hy
    exact hyo
  have hentered := isEntered_iff hr hb hx' hox (hin o ho) hbe
  refine ⟨a, e, ha, ?_⟩
  cases b with
  | true =>
    cases href
    refine ⟨?_, Lowered.Scheme.env_eq_ok.mp he, rfl⟩
    unfold Machine.resolve Machine.root
    dsimp only
    rw [hf.entered p o hp ho (hentered.mp rfl), ha]
    rfl
  | false =>
    obtain ⟨d, hd, href⟩ := Lower.bind_eq_ok.mp href
    obtain ⟨hs, hhops, href⟩ := Lower.bind_eq_ok.mp href
    obtain ⟨names, hnames, href⟩ := Lower.bind_eq_ok.mp href
    cases href
    rw [Lower.orInconsistent_eq_ok] at hd
    refine ⟨?_, Lowered.Scheme.env_eq_ok.mp he, rfl⟩
    -- the environment of the lambda comes from around the body
    obtain ⟨z, ad, hdz, hzk, had, hparam, hfollow⟩ := hf.follow_param hr hb hd
    have hlen : names.length = hs.length := (Lower.mapM_eq_ok.mp hnames).length_eq.symm
    obtain ⟨g, hg, hfold⟩ := hf.walk hr hw hout (PlanTable.walk_of_hopsFrom hhops) hdz hzk had hlen
    cases ha.symm.trans hg
    unfold Machine.resolve Machine.root
    dsimp only
    rw [hparam]
    dsimp only
    rw [hfollow]
    exact hfold

end Framed

end ClosureEnv.Run.Lasting
