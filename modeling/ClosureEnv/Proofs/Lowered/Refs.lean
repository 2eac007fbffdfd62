import ClosureEnv.Proofs.Lowered.Formed
import ClosureEnv.Proofs.Lowered.Sound
import ClosureEnv.Proofs.Plan.Reach
import ClosureEnv.Proofs.Plan.Walk

/-!
# References to environments

Every reference that is needed while a body is lowered can be made, and it leads to its environment
(`Prepared.exists_envRef`): an environment of the body has been entered by a block around, and one
from outside is found by way of parents from the environment of the lambda, as the closure needs it.
-/

namespace ClosureEnv

open Lowered (Scheme Inside Heads Climbs EnvRef Place EnvOperand Setting)
open Lowered.Scheme (directOf env_eq_ok)

variable {t : ScopeTree} {holds : VarId → ClosureId → Prop} {options : LowerOptions}
  {baseline : Option Baseline} {u : LoweredUnit} {a : Captures} {ps : PlanTable} {s : Synthesis}
  {xs : List Synthesis.Settlement}

/-! ## Environments and their plans -/

namespace Synthesis

/-- New fields are for variables of the plan. -/
theorem mem_slots_of_newFields {p : Plan} {fields : List LayoutField} {f : EnvField} {v : VarId}
    (hf : f ∈ newFields p fields) (hv : f.var = some v) : v ∈ p.slots := by
  obtain ⟨i, hi⟩ := List.mem_iff_getElem?.mp hf
  obtain ⟨g, w, -, hw, rfl⟩ := List.getElem?_zipWith_eq_some.mp hi
  cases hv
  exact List.mem_of_getElem? hw

/-- Fields that are kept for an earlier generation are for variables of the plan, if for any. -/
theorem mem_slots_of_keptFields {p : Plan} {fields : List LayoutField} {prior : Layout}
    {appended : List LayoutField} {f : EnvField} {v : VarId}
    (hf : f ∈ keptFields p fields prior appended) (hv : f.var = some v) : v ∈ p.slots := by
  obtain ⟨g, -, rfl⟩ := List.mem_map.mp hf
  obtain ⟨i, -, hi⟩ := Option.bind_eq_some_iff.mp hv
  exact List.mem_of_getElem? hi

/-- What an environment has of the plan at position `p`, whatever its fields are called. -/
structure StandsFor (ps : PlanTable) (s : Synthesis) (p : Nat) (x : Plan) (e : EnvType) : Prop where
  /-- It is that of the plan. -/
  plan : e.plan = p
  /-- It is kept as the plan says. -/
  kind : e.kind = x.repr
  /-- Its parent is the environment of the parent. -/
  parent : parentName s.envs x = .ok e.parent
  /-- Its fields are for variables of the plan. -/
  fields : ∀ f ∈ e.fields, ∀ v, f.var = some v → v ∈ x.slots

/-- Every environment stands for its plan. -/
theorem Account.standsFor (h : Account t ps options baseline s xs) (hps : ps.Sound t) {p : Nat}
    {e : EnvType} (he : s.envs[p]? = some e) : ∃ x, ps.plans[p]? = some x ∧ StandsFor ps s p x e := by
  obtain ⟨x, hx, rfl, hp⟩ := h.exists_settlement he
  have hmem := List.mem_of_getElem? hx
  have hsettled := h.settled x hmem
  refine ⟨x.plan, hp, ?_, ?_, h.parents x hmem, fun f hf v hv => ?_⟩
  · rw [hsettled.env]
    exact hps.linking.placed.plan_id p x.plan hp
  · rw [hsettled.env]
    rfl
  · cases hsettled.outcome with
    | minted _ _ _ _ _ hfields => exact mem_slots_of_newFields (hfields ▸ hf) hv
    | reused _ _ _ _ _ _ _ hfields => exact mem_slots_of_keptFields (hfields ▸ hf) hv
    | superseded _ _ _ _ _ _ _ _ hfields => exact mem_slots_of_newFields (hfields ▸ hf) hv

/-- The parent that an environment names is the environment of the parent of its plan. -/
theorem Account.exists_parent? (h : Account t ps options baseline s xs) (hps : ps.Sound t) {p : Nat}
    {e : EnvType} (he : s.envs[p]? = some e) {n : String} (hn : e.parent = some n) :
    ∃ q f, ps.parent? p = some q ∧ s.envs[q]? = some f ∧ f.name = n := by
  obtain ⟨x, hx, hmade⟩ := h.standsFor hps he
  have hparent := hmade.parent
  unfold parentName at hparent
  split at hparent
  · cases hn.symm.trans (Lower.pure_eq_ok.mp hparent).symm
  · next q hq =>
    obtain ⟨f, hf, hname⟩ := Lower.bind_eq_ok.mp hparent
    exact ⟨q, f, PlanTable.parent?_eq_some.mpr ⟨x, hx, hq⟩, Lower.orInconsistent_eq_ok.mp hf,
      Option.some.inj ((Lower.pure_eq_ok.mp hname).trans hn)⟩

end Synthesis

namespace Prepared

variable (hs : Prepared t options baseline a ps s xs)

include hs

/-- Every plan has an environment. -/
theorem exists_env {p : Nat} {x : Plan} (hp : ps.plans[p]? = some x) :
    ∃ e, s.envs[p]? = some e := by
  have hsize : s.envs.size = ps.plans.size := by
    rw [← Array.length_toList, hs.account.envs, List.length_map, ← Array.length_toList,
      ← hs.account.plans, List.length_map]
  exact ⟨_, Array.getElem?_eq_getElem (hsize ▸ (Array.getElem?_eq_some_iff.mp hp).1)⟩

/-- The parent of an environment is that of the parent of its plan. -/
theorem parent_name {p q : Nat} {e : EnvType} (he : s.envs[p]? = some e)
    (hq : ps.parent? p = some q) : ∃ f, s.envs[q]? = some f ∧ e.parent = some f.name := by
  obtain ⟨x, hx, hmade⟩ := hs.account.standsFor hs.plans he
  obtain ⟨y, hy, hyq⟩ := PlanTable.parent?_eq_some.mp hq
  cases hx.symm.trans hy
  have hparent := hmade.parent
  unfold Synthesis.parentName at hparent
  rw [hyq] at hparent
  obtain ⟨f, hf, hparent⟩ := Lower.bind_eq_ok.mp hparent
  exact ⟨f, Lower.orInconsistent_eq_ok.mp hf, (Lower.pure_eq_ok.mp hparent).symm⟩

/-- The names along a walk climb from one environment to the other. -/
theorem climbs_of_walk {p q : Nat} {way : List PlanId} (hway : PlanTable.Walk ps p way q) :
    ∀ {names : List String} {e f : EnvType},
      List.Forall₂ (fun h n => ∃ g, s.envs[h]? = some g ∧ g.name = n) way names →
      s.envs[p]? = some e → s.envs[q]? = some f → Climbs s.envs.toList e.name names f.name := by
  induction hway with
  | here p =>
    intro names e f hnames he hf
    cases hnames
    cases he.symm.trans hf
    exact .here _
  | @up p r q way hr _ ih =>
    intro names e f hnames he hf
    cases hnames with
    | cons hn hrest =>
      obtain ⟨g, hg, rfl⟩ := hn
      obtain ⟨g', hg', hparent⟩ := hs.parent_name he hr
      cases hg.symm.trans hg'
      exact .up (Array.mem_toList_iff.mpr (Array.mem_of_getElem? he)) hparent (ih hrest hg hf)

end Prepared

namespace Stages

variable (hs : Stages t options baseline u a ps s xs)

include hs

/-- The environments of a unit are those that were made. -/
theorem mem_envs {e : EnvType} : e ∈ u.envs ↔ ∃ p : Nat, s.envs[p]? = some e := by
  rw [hs.unit.envs, Array.mem_toList_iff, Array.mem_iff_getElem?]

/-- An environment of the unit is found by its plan. -/
theorem getElem?_plan {e : EnvType} (he : e ∈ u.envs) : s.envs[e.plan]? = some e := by
  obtain ⟨p, hp⟩ := hs.mem_envs.mp he
  obtain ⟨x, -, hx⟩ := hs.account.standsFor hs.plans hp
  rw [hx.plan]
  exact hp

/-- No two environments of a unit have one name. -/
theorem nodup_names : (u.envs.map EnvType.name).Nodup := by
  rw [hs.unit.envs]
  exact (List.nodup_append.mp (List.nodup_append.mp hs.account.nodup_names).1).2.1

/-- Names tell the environments of a unit apart. -/
theorem env_inj {e f : EnvType} (he : e ∈ u.envs) (hf : f ∈ u.envs) (heq : e.name = f.name) :
    e = f :=
  List.inj_on_of_nodup_map hs.nodup_names he hf heq

end Stages

/-! ## References -/

/-- Code that stands in a scope of a body, with the environment that its lambda is made with. -/
structure CodeAt (t : ScopeTree) (ps : PlanTable) (s : Synthesis) (cx : Inside)
    (param : Option String) (scope : ScopeId) : Prop where
  /-- The scope belongs to the body. -/
  body : t.BodyAt cx.scope scope
  /-- In the body of a closure the environment is that which the closure is bound to. -/
  param : ∀ c k, t.closures[c]? = some k → k.scope = cx.scope → ∃ b e,
    ps.bindings.find? c = some b ∧ cx.envParam = directOf b ∧ s.envs[b.plan]? = some e ∧
      param = some e.name

/-- The environments of the scopes from the start of a body to scope `i` have been entered. -/
def Entered (t : ScopeTree) (ps : PlanTable) (s : Synthesis) (cx : Inside) (heads : Heads)
    (i : ScopeId) : Prop :=
  ∀ p o e, ps.From p o → AroundEq t.scopes cx.scope o → AroundEq t.scopes o i →
    s.envs[p]? = some e → (Name.envLocal p, e.name) ∈ heads

section

variable (h : t.WellBound holds) (hs : Prepared t options baseline a ps s xs) {cx : Inside}
  {param : Option String} {heads : Heads} {scope : ScopeId}

include h

/-- An environment from around a scope is entered in its body if it comes from that body. -/
theorem CodeAt.isEntered_iff (hst : CodeAt t ps s cx param scope) (hps : ps.Sound t) {p : Nat}
    {x : Plan} {o : ScopeId} (hp : ps.plans[p]? = some x) (ho : x.origin = some o)
    (hos : AroundEq t.scopes o scope) : ∃ b, Scheme.isEntered ⟨t, ps, s⟩ cx x = .ok b ∧
      (b = true ↔ AroundEq t.scopes cx.scope o) := by
  have hpre := h.preorder
  obtain ⟨sc, hsc⟩ := hps.linking.placed.exists_scope ⟨x, hp, ho⟩
  obtain ⟨z, hz, hat⟩ := h.bodyOf_spec (Array.getElem?_eq_some_iff.mp hsc).1
  unfold Scheme.isEntered
  rw [ho]
  dsimp only
  rw [hz, Lower.ok_bind]
  refine ⟨_, rfl, ?_⟩
  rw [beq_iff_eq]
  constructor
  · rintro rfl
    exact hat.aroundEq
  · exact fun hco => hat.unique hpre (hst.body.of_aroundEq hpre hco hos)

omit h in
/-- A body with something around it is that of a closure. -/
theorem CodeAt.exists_closure (h : t.WellBound holds) (hst : CodeAt t ps s cx param scope)
    {o : ScopeId} (ho : Around t.scopes o cx.scope) :
    ∃ (c : ClosureId) (k : Closure), t.closures[c]? = some k ∧ k.scope = cx.scope := by
  obtain ⟨sc, hsc, hbody⟩ := hst.body.isBody
  obtain ⟨q, hq, -⟩ := (around_iff h.preorder).mp ho
  rw [parentIn?_of_scope hsc] at hq
  obtain ⟨c, hc⟩ := (h.isBody_of_parent hsc hq).mp hbody
  exact ⟨c, h.closure_of_scope _ sc c hsc hc⟩

/-- Code at the start of a body. -/
theorem CodeAt.start {x : Scope} (hx : t.scopes[scope]? = some x) (hbody : x.isBody = true)
    {o : Option PlanId} (hparam : ∀ c k, t.closures[c]? = some k → k.scope = scope → ∃ b e,
      ps.bindings.find? c = some b ∧ o = directOf b ∧ s.envs[b.plan]? = some e ∧
        param = some e.name) : CodeAt t ps s ⟨scope, o⟩ param scope where
  body := ⟨.inl rfl, ⟨x, hx, hbody⟩, fun _ _ hz hzs =>
    absurd (hz.trans_eq h.preorder hzs) (Around.irrefl h.preorder)⟩
  param := hparam

/-- Code at the start of the body of a function. -/
theorem CodeAt.function {i : Nat} {f : Function} (hf : t.fns[i]? = some f) :
    CodeAt t ps s ⟨f.scope, none⟩ none f.scope := by
  obtain ⟨-, -, x, hx, hkind⟩ := h.fn_scope i f hf
  have hroot : x.parent = none := (h.root_iff _ x hx).mpr hkind
  refine CodeAt.start h hx (h.isBody_of_root hx hroot) fun c k hk hkf => ?_
  obtain ⟨y, hy, -, hpar⟩ := h.closure_scope c k hk
  rw [hkf] at hy
  cases hx.symm.trans hy
  rw [hroot] at hpar
  cases hpar

/-- Code at the start of the body of a closure. -/
theorem CodeAt.closure {c : Nat} {k : Closure} (hk : t.closures[c]? = some k) {b : ClosureBinding}
    {e : EnvType} (hb : ps.bindings.find? c = some b) (he : s.envs[b.plan]? = some e) :
    CodeAt t ps s ⟨k.scope, directOf b⟩ (some e.name) k.scope := by
  obtain ⟨x, hx, hxc, hpar⟩ := h.closure_scope c k hk
  refine CodeAt.start h hx
    ((h.isBody_of_parent hx hpar).mpr ⟨c, hxc⟩) fun d l hl hlk => ?_
  obtain ⟨y, hy, hyd, -⟩ := h.closure_scope d l hl
  rw [hlk] at hy
  cases hx.symm.trans hy
  cases hxc.symm.trans hyd
  exact ⟨b, e, hb, rfl, he, rfl⟩

include hs

/-- The environments that a closure needs are found from the one that it is made with. -/
theorem Prepared.exists_hops {c : ClosureId} {k : Closure} {d p : PlanId} {e f : EnvType}
    (hk : t.closures[c]? = some k) (hd : ps.bindings.find? c = some (.direct d))
    (hp : p ∈ ps.neededBy c) (he : s.envs[d]? = some e) (hf : s.envs[p]? = some f) :
    ∃ way names, ps.hops d p = .ok way ∧
      (way.mapM fun q => do return (← Synthesis.env s q).name) = .ok names ∧
      Climbs s.envs.toList e.name names f.name := by
  have hin := hs.plans.isInnermost_of_direct hd
  obtain ⟨way, hway⟩ := PlanTable.Walk.exists_of_chain
    (hs.plans.closed.chain c d p (Array.getElem?_eq_some_iff.mp hk).1 hin hp)
  obtain ⟨z, hz, -⟩ := hin.2
  have hplans : ∀ q ∈ d :: way, ∃ y, ps.plans[q]? = some y :=
    hway.forall_mem (P := fun q => ∃ y, ps.plans[q]? = some y) (hz.imp fun y hy => hy.1)
      fun q r _ hr => ⟨_, Array.getElem?_eq_getElem (hs.plans.linking.parent_lt_size hr)⟩
  obtain ⟨names, hnames⟩ := Lower.mapM_exists (l := way)
    (f := fun q => do return (← Synthesis.env s q).name) fun q hq => by
      obtain ⟨y, hy⟩ := hplans q (List.mem_cons_of_mem _ hq)
      obtain ⟨g, hg⟩ := hs.exists_env hy
      exact ⟨g.name, by rw [env_eq_ok.mpr hg]; rfl⟩
  refine ⟨way, names, (hs.plans.linking.hops_eq_ok h.preorder hz.lt_size).mpr hway, hnames, ?_⟩
  refine hs.climbs_of_walk hway ((Lower.mapM_eq_ok.mp hnames).imp fun q n hn => ?_) he hf
  obtain ⟨g, hg, hn⟩ := Lower.bind_eq_ok.mp hn
  exact ⟨g, env_eq_ok.mp hg, Lower.pure_eq_ok.mp hn⟩

/-- A reference to an environment that is handed on can be made, and leads there. -/
theorem Prepared.exists_envRef (hst : CodeAt t ps s cx param scope) {w : Setting}
    (henvs : w.envs = s.envs.toList) (hw : w.param = param) {p : PlanId} {o : ScopeId}
    (hp : PlanTable.Handed t ps p o scope)
    (hheads : AroundEq t.scopes cx.scope o → ∀ e, s.envs[p]? = some e →
      (Name.envLocal p, e.name) ∈ heads) :
    ∃ ref e, Scheme.envRef ⟨t, ps, s⟩ cx p = .ok ref ∧ s.envs[p]? = some e ∧ ref.env = e.name ∧
      w.Leads heads ref := by
  obtain ⟨x, hx, hxo⟩ := hp.origin
  obtain ⟨e, he⟩ := hs.exists_env hx
  obtain ⟨b, hb, hentered⟩ := hst.isEntered_iff h hs.plans hx hxo hp.around
  unfold Scheme.envRef
  rw [PlanTable.plan_eq_ok.mpr hx, Lower.ok_bind, env_eq_ok.mpr he, Lower.ok_bind, hb,
    Lower.ok_bind]
  cases b with
  | true => exact ⟨_, e, rfl, he, rfl, .entered (hheads (hentered.mp rfl) e he)⟩
  | false =>
    -- the environment comes from around the body, which is that of a closure then
    have hnot : ¬ AroundEq t.scopes cx.scope o := fun hco => by cases hentered.mpr hco
    have hout : Around t.scopes o cx.scope :=
      (AroundEq.total h.preorder hst.body.aroundEq hp.around).resolve_left hnot
    obtain ⟨c, k, hk, hkc⟩ := hst.exists_closure h hout
    have hneeded := hp.needed c k hk (hkc ▸ hout) (hkc ▸ hst.body.aroundEq)
    obtain ⟨b, d, hbind, hparam, hd, rfl⟩ := hst.param c k hk hkc
    rcases hs.plans.binding c b hbind with ⟨d', rfl, -⟩ | ⟨hnone, -⟩
    · obtain ⟨way, names, hway, hnames, hclimbs⟩ := hs.exists_hops h hk hbind hneeded hd he
      refine ⟨⟨.envParam, names, e.name⟩, e, ?_, he, rfl, .climbed hw (henvs ▸ hclimbs)⟩
      rw [hparam]
      show (do
        let hops ← (← PlanTable.hops ps d' p).mapM fun q => do return (← Synthesis.env s q).name
        return (⟨.envParam, hops, e.name⟩ : EnvRef)) = _
      rw [hway, Lower.ok_bind, hnames]
      rfl
    · rw [hnone] at hneeded
      cases hneeded

end

/-! ## Vantage points -/

/-- A vantage point in a body: code of the body stands there and sees some variables. -/
structure Vantage (t : ScopeTree) (ps : PlanTable) (s : Synthesis) (cx : Inside)
    (param : Option String) (scope : ScopeId) (vis : VarId → Prop) : Prop where
  /-- Code of the body stands there. -/
  code : CodeAt t ps s cx param scope
  /-- The variables can be seen from there. -/
  reach : t.Reach scope vis

namespace Vantage

variable {cx : Inside} {param : Option String} {scope i : ScopeId} {vis : VarId → Prop}
  (h : t.WellBound holds)

include h

/-- More is visible after a statement. -/
theorem declare (hv : Vantage t ps s cx param scope vis) {x : Bound.Stmt}
    (hx : x.Scoped t holds scope vis) : Vantage t ps s cx param scope (Bound.after vis [x]) :=
  ⟨hv.code, hv.reach.declare h hx⟩

/-- More is visible after statements. -/
theorem after (hv : Vantage t ps s cx param scope vis) {ss : List Bound.Stmt}
    (hss : Bound.stmtsScoped t holds scope vis ss) :
    Vantage t ps s cx param scope (Bound.after vis ss) :=
  ⟨hv.code, hv.reach.after h hss⟩

/-- As much is visible in a block or a loop as around it. -/
theorem enter (hv : Vantage t ps s cx param scope vis) {kind : ScopeKind}
    (hopens : Bound.Opens t scope i kind) (hkind : kind = .block ∨ kind = .loop) :
    Vantage t ps s cx param i vis := by
  obtain ⟨x, hx, rfl, hpar⟩ := hopens
  have hclosure : x.kind ≠ .closure := by
    rcases hkind with hk | hk <;> rw [hk] <;> exact fun hk => by cases hk
  have hno : x.isBody = false := by
    rw [Bool.eq_false_iff]
    exact fun hbody =>
      hclosure ((h.closure_iff i x hx).mpr ((h.isBody_of_parent hx hpar).mp hbody))
  exact ⟨⟨hv.code.body.of_parent h.preorder hx hpar hno, hv.code.param⟩,
    hv.reach.block h hx hpar hclosure⟩

/-- The start of a function. -/
theorem function {f : Function} (hf : f ∈ t.fns) (hsyn : f.isSynthetic = false) :
    Vantage t ps s ⟨f.scope, none⟩ none f.scope (· ∈ f.params) := by
  obtain ⟨n, hn⟩ := Array.mem_iff_getElem?.mp hf
  obtain ⟨-, -, -, hparams⟩ := h.fn_body f hf hsyn
  exact ⟨CodeAt.function h hn, ScopeTree.Reach.params h hparams⟩

/-- The start of a closure. -/
theorem closure {c : Nat} {k : Closure} (hk : t.closures[c]? = some k) {b : ClosureBinding}
    {e : EnvType} (hb : ps.bindings.find? c = some b) (he : s.envs[b.plan]? = some e) :
    Vantage t ps s ⟨k.scope, directOf b⟩ (some e.name) k.scope
      fun v => t.Needs c v ∨ v ∈ k.params := by
  obtain ⟨-, -, hparams⟩ := h.closure_body c k hk
  exact ⟨CodeAt.closure h hk hb he,
    (ScopeTree.Reach.needs h hk).or (ScopeTree.Reach.params h hparams)⟩

/-- The start of the initial value of a global, where nothing is visible. -/
theorem global {f : Function} (hf : t.fns.find? Function.isSynthetic = some f) :
    Vantage t ps s ⟨f.scope, none⟩ none f.scope fun _ => False := by
  obtain ⟨n, hn⟩ := Array.mem_iff_getElem?.mp (Array.mem_of_find?_eq_some hf)
  exact ⟨CodeAt.function h hn, fun v hv => hv.elim⟩

end Vantage

end ClosureEnv
