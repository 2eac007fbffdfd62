import ClosureEnv.Proofs.Lasting.Variables

/-!
# The entry of a scope

A machine that enters a scope brings its environment into existence as the store does, with the
values of the parameters that it holds and a link to the environment nearest in sight (`enter_run`).
-/

namespace ClosureEnv.Run.Lasting

open Lowered (Scheme Inside)

variable {holds : VarId → ClosureId → Prop} {r : Scheme} {cx : Inside} {i : ScopeId}
  {params : List VarId} {m : Machine} {s : Store} {c : Run.Context}

/-! ## The entry of a store -/

/-- A plan that comes from a scope is the one that its entry is for. -/
theorem planAt?_of_from (hr : r.Sound holds) {p : PlanId} {x : Plan}
    (hx : r.plans.plans[p]? = some x) (ho : x.origin = some i) :
    Store.planAt? r.plans i = some x := by
  have hknown := hr.plans.linking.placed.scope_known p i ⟨x, hx, ho⟩
  unfold Store.planAt?
  rw [hknown, Option.bind_some, hx, Option.filter_some, ho, beq_self_eq_true, if_pos rfl]

/-- The entry of a scope that no plan comes from changes nothing. -/
theorem enter_of_not_from (h : ∀ p, ¬ r.plans.From p i) : s.enter r.plans i params = s := by
  unfold Store.enter
  cases hplan : Store.planAt? r.plans i with
  | none => rfl
  | some x =>
    unfold Store.planAt? at hplan
    obtain ⟨hbind, ho⟩ := Option.filter_eq_some_iff.mp hplan
    obtain ⟨p, -, hx⟩ := Option.bind_eq_some_iff.mp hbind
    exact absurd ⟨x, hx, beq_iff_eq.mp ho⟩ (h p)

/-- The entry of a scope that a plan comes from. -/
theorem enter_of_from (hr : r.Sound holds) {p : PlanId} {x : Plan}
    (hx : r.plans.plans[p]? = some x) (ho : x.origin = some i) :
    s.enter r.plans i params = { s with
      heap := s.heap.push ⟨p, s.sight.insert p s.heap.size, s.given x params⟩
      sight := s.sight.insert p s.heap.size } := by
  unfold Store.enter
  rw [planAt?_of_from hr hx ho, ← hr.plans.linking.placed.plan_id p x hx]

/-- The heap grows with the entry of a scope. -/
theorem grows_enter (s : Store) (ps : PlanTable) (i : ScopeId) (params : List VarId) :
    Grows s.heap (s.enter ps i params).heap := by
  unfold Store.enter
  split
  · exact .refl _
  · exact .push _ _

/-- The variables of the frame stay. -/
theorem locals_enter (s : Store) (ps : PlanTable) (i : ScopeId) (params : List VarId) :
    (s.enter ps i params).locals = s.locals := by
  unfold Store.enter
  split <;> rfl

/-- What is in sight around a scope stays in sight. -/
theorem sameSight_enter (hr : r.Sound holds) {d : ScopeId} (hd : Around r.tree.scopes d i) :
    SameSight r.tree r.plans d s.sight (s.enter r.plans i params).sight := by
  by_cases h : ∃ p, r.plans.From p i
  · obtain ⟨p, x, hx, ho⟩ := h
    rw [enter_of_from hr hx ho]
    exact SameSight.insert hr.bound.preorder ⟨x, hx, ho⟩ hd _
  · rw [enter_of_not_from fun p hp => h ⟨p, hp⟩]
    exact .refl

/-- The parameters that an environment holds have their values. -/
theorem find?_given (x : Plan) (v : VarId) : (s.given x params).find? v =
    if v ∈ x.slots ∧ v ∈ params then s.locals.find? v else none := by
  refine SortedMap.find?_eq fun w => ?_
  unfold Store.given
  rw [List.mem_filterMap]
  constructor
  · rintro ⟨v', hv', hw⟩
    obtain ⟨w', hw', heq⟩ := Option.map_eq_some_iff.mp hw
    cases heq
    rw [List.mem_filter, List.contains_iff_mem] at hv'
    rw [if_pos hv', hw']
  · intro hw
    split at hw
    · next hv => exact ⟨v, by simpa using hv, by rw [hw]; rfl⟩
    · cases hw

/-! ## Lowered entries -/

/-- What the lowered entry of a scope with a plan is made of. -/
structure EntryOf (r : Scheme) (cx : Inside) (i : ScopeId) (params : List VarId) (p : PlanId)
    (x : Plan) (e : EnvType) (args : List Lowered.Expr) (parent : Option Lowered.EnvRef) : Prop where
  /-- The plan is there. -/
  plan : r.plans.plans[p]? = some x
  /-- It comes from the scope. -/
  origin : x.origin = some i
  /-- It has a type of environment. -/
  env : r.synthesis.envs[p]? = some e
  /-- There is an argument for every live field. -/
  args : (e.fields.filterMap EnvField.var).mapM (r.entryArg params) = .ok args
  /-- There is a way to the parent, if there is one. -/
  parent : x.parent.mapM (r.envRef cx) = .ok parent

/-- Lowering the entry of a scope that succeeds. -/
theorem entry?_eq_ok (hr : r.Sound holds) {entry : Option Lowered.Stmt}
    (h : r.entry? cx i params = .ok entry) :
    (entry = none ∧ ∀ p, ¬ r.plans.From p i) ∨
      ∃ p x e args parent kind, EntryOf r cx i params p x e args parent ∧
        entry = some (.enter p e.name (Name.envLocal p) kind args parent) := by
  rcases Scheme.entry?_eq_ok h with
    ⟨rfl, hno⟩ | ⟨p, x, e, args, parent, hx, ho, he, hargs, hparent, rfl⟩
  · exact .inl ⟨rfl, fun p hp => hno p (hr.plans.linking.placed.scope_known p i hp) hp⟩
  · exact .inr ⟨p, x, e, args, parent, _, ⟨hx, ho, he, hargs, hparent⟩, rfl⟩

/-! ## Initial values -/

/-- The fields of an environment that get an initial value, given the variables of the frame. -/
def given (locals : SortedMap VarId Run.Val) (params : List VarId) (fields : List EnvField) :
    List (String × Run.Val) :=
  fields.filterMap fun f =>
    (f.var.filter params.contains).bind fun v => (locals.find? v).map (f.name, ·)

/-- What a field gets. -/
theorem mem_given {locals : SortedMap VarId Run.Val} {fields : List EnvField} {n : String}
    {x : Run.Val} : (n, x) ∈ given locals params fields ↔
      ∃ f v, f ∈ fields ∧ f.name = n ∧ f.var = some v ∧ v ∈ params ∧ locals.find? v = some x := by
  unfold given
  rw [List.mem_filterMap]
  constructor
  · rintro ⟨f, hf, h⟩
    obtain ⟨v, hv, h⟩ := Option.bind_eq_some_iff.mp h
    obtain ⟨hv, hmem⟩ := Option.filter_eq_some_iff.mp hv
    obtain ⟨y, hy, heq⟩ := Option.map_eq_some_iff.mp h
    cases heq
    exact ⟨f, v, hf, rfl, hv, List.contains_iff_mem.mp hmem, hy⟩
  · rintro ⟨f, v, hf, rfl, hv, hmem, hx⟩
    refine ⟨f, hf, Option.bind_eq_some_iff.mpr ⟨v, Option.filter_eq_some_iff.mpr ⟨hv, ?_⟩, ?_⟩⟩
    · exact List.contains_iff_mem.mpr hmem
    · rw [hx]
      rfl

/-- The initial values are computed. -/
theorem slots_run {locals : SortedMap VarId Run.Val} (env : String)
    (hlocals : ∀ v ∈ params, ∃ x, locals.find? v = some x) (fields : List EnvField) :
    ∀ args m, (fields.filterMap EnvField.var).mapM (r.entryArg params) = .ok args →
      m.frame.locals = locals →
      c.slots env ((fields.filter (·.var.isSome)).map EnvField.name) args m =
        (.ok (given locals params fields), m) := by
  induction fields with
  | nil =>
    intro args m hargs _
    cases hargs
    rfl
  | cons f fields ih =>
    intro args m hargs hm
    rw [List.filterMap_cons] at hargs
    cases hv : f.var with
    | none =>
      rw [hv] at hargs
      simp only [given, List.filterMap_cons, List.filter_cons, hv, Option.isSome_none,
        Option.filter_none, Option.bind_none]
      exact ih args m hargs hm
    | some v =>
      rw [hv] at hargs
      dsimp only at hargs
      rw [List.mapM_cons] at hargs
      obtain ⟨arg, harg, hargs⟩ := Lower.bind_eq_ok.mp hargs
      obtain ⟨args, hrest, hargs⟩ := Lower.bind_eq_ok.mp hargs
      cases hargs
      rw [List.filter_cons, hv, if_pos Option.isSome_some, List.map_cons]
      unfold Scheme.entryArg at harg
      split at harg
      · -- A slot for a parameter is filled with it; a slot for another variable stays empty.
        next hmem =>
        obtain ⟨name, -, harg⟩ := Lower.bind_eq_ok.mp harg
        cases harg
        obtain ⟨x, hx⟩ := hlocals v (List.contains_iff_mem.mp hmem)
        have hgiven : given locals params (f :: fields) =
            (f.name, x) :: given locals params fields := by
          unfold given
          rw [List.filterMap_cons, hv, Option.filter_some, if_pos hmem, Option.bind_some, hx]
          rfl
        have hread : Exec.returning (c.expr (.var v name)) m = (.ok x, m) := by
          rw [Exec.returning_run, Run.Context.expr, readLocal_run (hm ▸ hx)]
        rw [Run.Context.slots, Exec.bind_of_ok hread,
          Exec.bind_of_ok (holding_run (ih args _ hrest hm)), hgiven]
        · rfl
        · intro h
          cases h
      · next hmem =>
        cases harg
        have hgiven : given locals params (f :: fields) = given locals params fields := by
          unfold given
          rw [List.filterMap_cons, hv, Option.filter_some, if_neg hmem]
          rfl
        rw [Run.Context.slots, ih args m hrest hm, hgiven]

/-! ## Entering -/

/-- What holds once a scope is entered. -/
structure Entered (holds : VarId → ClosureId → Prop) (r : Scheme) (cx : Inside) (i : ScopeId)
    (m : Machine) (m' : Machine) (s' : Store) : Prop where
  /-- The machine stands for the store. -/
  world : World holds r m' s'
  /-- The environments in sight are found. -/
  framed : Framed r cx (AroundEq r.tree.scopes · i) m' s'
  /-- What was entered comes from the scope. -/
  entered : ∃ names, m'.frame.entered = names ++ m.frame.entered ∧
    ∀ n ∈ names, ∃ p, r.plans.From p i ∧ n = Name.envLocal p

namespace EntryOf

variable (hr : r.Sound holds) {p : PlanId} {x : Plan} {e : EnvType} {args : List Lowered.Expr}
  {parent : Option Lowered.EnvRef}

include hr

/-- The new environment of the machine stands for that of the store. -/
theorem standsFor (h : EntryOf r cx i params p x e args parent)
    (hlocals : ∀ v, Option.Rel (Same r) (m.frame.locals.find? v) (s.locals.find? v)) (a : Addr)
    {up : Option Addr} (hup : ∀ q, x.parent = some q → ∃ b, s.sight.find? q = some b ∧ up = some b) :
    StandsFor r ⟨e.name, .ofList (given m.frame.locals params e.fields), up.map .shared⟩
      ⟨p, s.sight.insert p a, s.given x params⟩ := by
  have hp := hr.bound.preorder
  have hmade := hr.synthesis.env p x e h.plan h.env
  constructor
  · intro e' v f he' hf
    cases h.env.symm.trans he'
    obtain ⟨hfm, hfv⟩ := HasFields.mem_of_fieldFor hf
    have hvs := hmade.fields.mem_slots hfm hfv
    -- A field has a value if its variable is a parameter, since fields with one name are one field.
    have hfield : (SortedMap.ofList (given m.frame.locals params e.fields)).find? f.name =
        if v ∈ params then m.frame.locals.find? v else none := by
      refine SortedMap.find?_ofList_eq fun w => ?_
      rw [mem_given]
      constructor
      · rintro ⟨g, v', hg, hname, hgv, hv', hw⟩
        obtain ⟨g', hg'⟩ := hmade.fields.exists_fieldFor (hmade.fields.mem_slots hg hgv)
        have heq := hmade.fields.fieldFor_inj hf hg'
          (hname.symm.trans (hmade.fields.name_eq hg' hg hgv))
        subst heq
        rw [if_pos hv', hw]
      · intro hw
        split at hw
        · next hv => exact ⟨f, v, hfm, rfl, hfv, hv, hw⟩
        · cases hw
    dsimp only
    rw [hfield, find?_given]
    by_cases hv : v ∈ params
    · rw [if_pos hv, if_pos ⟨hvs, hv⟩]
      exact hlocals v
    · rw [if_neg hv, if_neg fun hn => hv hn.2]
      exact .none
  · intro q hq
    have hxq : x.parent = some q := by
      unfold PlanTable.parent? at hq
      rw [h.plan] at hq
      exact hq
    obtain ⟨b, hb, hup⟩ := hup q hxq
    obtain ⟨o, z, hpo, hqz, hzo, -⟩ := hr.plans.linking.parent p q hq
    have hne : q ≠ p := by
      rintro rfl
      exact Around.irrefl hp (hpo.unique hqz ▸ hzo)
    exact ⟨b, (SortedMap.find?_insert_of_ne hne _ _).trans hb, by rw [hup]; rfl⟩

/-- The frame of the machine has the new environment, as the store has. -/
theorem framed (h : EntryOf r cx i params p x e args parent) (hb : InBody r cx i)
    (hf : Framed r cx (Around r.tree.scopes · i) m s) {m' : Machine}
    (hlocals : m'.frame.locals = m.frame.locals)
    (henvs : m'.frame.envs = m.frame.envs.insert (Name.envLocal p) s.heap.size)
    (hparam : m'.frame.envParam = m.frame.envParam) (hcallers : m'.callers = m.callers) :
    Framed r cx (AroundEq r.tree.scopes · i) m' (s.enter r.plans i params) := by
  have hp := hr.bound.preorder
  have hfrom : r.plans.From p i := ⟨x, h.plan, h.origin⟩
  have hgrows := grows_enter s r.plans i params
  -- no other environment in sight is of this plan
  have hother (q : PlanId) (o : ScopeId) (hq : r.plans.From q o) (ho : Around r.tree.scopes o i) :
      q ≠ p := by
    rintro rfl
    exact Around.irrefl hp (hq.unique hfrom ▸ ho)
  have hsight (q : PlanId) (o : ScopeId) (hq : r.plans.From q o) (ho : Around r.tree.scopes o i) :
      (s.enter r.plans i params).sight.find? q = s.sight.find? q :=
    sameSight_enter hr ho q o hq (.inl rfl)
  have hself : (s.enter r.plans i params).sight.find? p = some s.heap.size := by
    rw [enter_of_from hr h.plan h.origin]
    exact SortedMap.find?_insert_self _ _ _
  constructor
  · -- From the scope itself there is one environment only, the new one.
    rintro q o hq (rfl | ho)
    · cases hr.plans.linking.placed.from_inj hq hfrom
      refine ⟨s.heap.size, ⟨p, s.sight.insert p s.heap.size, s.given x params⟩, hself, ?_, rfl, ?_⟩
      · rw [enter_of_from hr h.plan h.origin]
        dsimp only
        rw [Array.getElem?_push, if_pos rfl]
      · rw [enter_of_from hr h.plan h.origin]
        exact .refl
    · obtain ⟨a, j, ha, hj, hjp, hsame⟩ := (hf.covers.mono hgrows) q o hq ho
      exact ⟨a, j, (hsight q o hq ho).trans ha, hj, hjp, (sameSight_enter hr ho).symm.trans hsame⟩
  · intro v
    rw [hlocals, locals_enter]
    exact hf.locals v
  · rintro q o hq (rfl | ho) hco
    · cases hr.plans.linking.placed.from_inj hq hfrom
      rw [henvs, hself]
      exact SortedMap.find?_insert_self _ _ _
    · have hname : Name.envLocal q ≠ Name.envLocal p :=
        fun heq => hother q o hq ho (Name.envLocal_inj heq)
      rw [henvs, SortedMap.find?_insert_of_ne hname, hsight q o hq ho]
      exact hf.entered q o hq ho hco
  · intro d hd
    obtain ⟨a, ha, hm⟩ := hf.param d hd
    obtain ⟨o, hdo, hob, -⟩ := hb.param_from hr hd
    have hoi : Around r.tree.scopes o i := hob.trans_eq hp hb.body.aroundEq
    exact ⟨a, (hsight d o hdo hoi).trans ha, hparam.trans hm⟩
  · intro q o a hq ho hheap hnone ha
    rw [hsight q o hq (ho.trans_eq hp hb.body.aroundEq)] at ha
    rw [hcallers]
    exact hf.outer q o a hq ho hheap hnone ha

/-- The way to the parent leads there. -/
theorem parent_run (h : EntryOf r cx i params p x e args parent) (hb : InBody r cx i)
    (hw : World holds r m s) (hf : Framed r cx (Around r.tree.scopes · i) m s) :
    ∃ up, (parent.mapM Run.resolve : Run.Eval (Option Addr)) m = (.ok up, m) ∧
      ∀ q, x.parent = some q → ∃ b, s.sight.find? q = some b ∧ up = some b := by
  have hp := hr.bound.preorder
  have hparent := h.parent
  cases hq : x.parent with
  | none =>
    rw [hq] at hparent
    cases hparent
    exact ⟨none, rfl, fun q hq => (by cases hq)⟩
  | some q =>
    rw [hq] at hparent
    obtain ⟨ref, href, hparent⟩ := Lower.bind_eq_ok.mp hparent
    cases hparent
    have hpq : r.plans.parent? p = some q := by
      unfold PlanTable.parent?
      rw [h.plan]
      exact hq
    obtain ⟨o, z, hpo, hqz, hzo, -⟩ := hr.plans.linking.parent p q hpq
    have hzi : Around r.tree.scopes z i := hpo.unique ⟨x, h.plan, h.origin⟩ ▸ hzo
    obtain ⟨b, -, hqb, hres, -⟩ := hf.resolve hr hw hb (fun _ => .inr)
      (fun o ho => ho.trans_eq hp hb.body.aroundEq) hqz hzi href
    refine ⟨some b, ?_, fun q' hq' => ?_⟩
    · show (Run.resolve ref >>= fun b => pure (some b)) m = _
      rw [Exec.bind_of_ok (resolve_run hres)]
      rfl
    · cases hq'
      exact ⟨b, hqb, rfl⟩

/-- The environment of the scope comes into existence. -/
theorem enterEnv_run (h : EntryOf r cx i params p x e args parent) (hb : InBody r cx i)
    (hw : World holds r m s) (hf : Framed r cx (Around r.tree.scopes · i) m s)
    (hparams : ∀ v ∈ params, ∃ x y, r.tree.vars[v]? = some x ∧ s.locals.find? v = some y ∧
      Free r.tree r.plans s.heap y) :
    ∃ m', Run.enterEnv e.name (Name.envLocal p) (given m.frame.locals params e.fields) parent m =
        (.ok (), m') ∧ World holds r m' (s.enter r.plans i params) ∧
      Framed r cx (AroundEq r.tree.scopes · i) m' (s.enter r.plans i params) ∧
      m'.frame.entered = m.frame.entered := by
  have hp := hr.bound.preorder
  let vs := (given m.frame.locals params e.fields).map Prod.snd
  obtain ⟨up, hrun, hup⟩ := h.parent_run hr hb (hw.pending (vs ++ m.frame.pending))
    (hf.pending (vs ++ m.frame.pending))
  refine ⟨m.enter (Name.envLocal p) ⟨e.name, .ofList (given m.frame.locals params e.fields),
    up.map .shared⟩, ?_, ?_, ?_, rfl⟩
  · unfold Run.enterEnv
    rw [Exec.bind_of_ok (holding_run hrun)]
    rfl
  · have hslots (v : VarId) (y : Val) (hy : (s.given x params).find? v = some y) :
        Good r.tree r.plans s.heap (InSlot r.tree r.plans holds
          (s.sight.insert p s.heap.size) v) y := by
      rw [find?_given] at hy
      split at hy
      · next hv =>
        obtain ⟨z, y', hz, hy', hfree⟩ := hparams v hv.2
        cases hy.symm.trans hy'
        exact hfree.imp fun held hesc => ⟨z, hz, .inl hesc⟩
      · cases hy
    have hworld := hw.allocate (h.standsFor hr hf.locals s.heap.size hup) hslots
    rw [enter_of_from hr h.plan h.origin]
    exact hworld.congr rfl rfl rfl rfl rfl rfl hworld.depth
  · refine h.framed hr hb hf rfl ?_ rfl rfl
    rw [← hw.size]
    rfl

end EntryOf

/-- A scope is entered. -/
theorem enter_run (hr : r.Sound holds) (hu : Scheme.UnitOf r c.unit) (hb : InBody r cx i)
    (hw : World holds r m s) (hf : Framed r cx (Around r.tree.scopes · i) m s)
    (hparams : ∀ v ∈ params, ∃ x y, r.tree.vars[v]? = some x ∧ s.locals.find? v = some y ∧
      Free r.tree r.plans s.heap y) {entry : Option Lowered.Stmt}
    (hentry : r.entry? cx i params = .ok entry) :
    ∃ m', c.stmts entry.toList m = (.ok (), m') ∧
      Entered holds r cx i m m' (s.enter r.plans i params) := by
  rcases entry?_eq_ok hr hentry with ⟨rfl, hno⟩ | ⟨p, x, e, args, parent, kind, h, rfl⟩
  · rw [enter_of_not_from hno]
    refine ⟨m, rfl, hw, ⟨?_, hf.locals, ?_, hf.param, hf.outer⟩, [], rfl, fun n hn => (by cases hn)⟩
    · rintro p o hp (rfl | ho)
      · exact absurd hp (hno p)
      · exact hf.covers p o hp ho
    · rintro p o hp (rfl | ho)
      · exact absurd hp (hno p)
      · exact hf.entered p o hp ho
  · -- the name is noted first, then the values are computed
    let m₁ : Machine := { m with frame.entered := Name.envLocal p :: m.frame.entered }
    have hw₁ : World holds r m₁ s := hw.congr rfl rfl rfl rfl rfl rfl hw.depth
    have hf₁ : Framed r cx (Around r.tree.scopes · i) m₁ s :=
      ⟨hf.covers, hf.locals, hf.entered, hf.param, hf.outer⟩
    obtain ⟨m', hrun, hw', hf', hentered⟩ := h.enterEnv_run hr hb hw₁ hf₁ hparams
    have hlocals (v : VarId) (hv : v ∈ params) : ∃ y, m₁.frame.locals.find? v = some y := by
      obtain ⟨-, y, -, hy, -⟩ := hparams v hv
      obtain ⟨y', hy', -⟩ := exists_of_rel (hy ▸ hf.locals v)
      exact ⟨y', hy'⟩
    have hnames : liveFieldNames c.unit e.name m₁ = (.ok (e.liveFields.map EnvField.name), m₁) := by
      unfold liveFieldNames
      rw [hu.env? hr h.env]
      rfl
    have hslots : c.slots e.name (e.liveFields.map EnvField.name) args m₁ =
        (.ok (given m₁.frame.locals params e.fields), m₁) :=
      slots_run e.name hlocals e.fields args m₁ h.args rfl
    refine ⟨m', ?_, hw', hf', [Name.envLocal p], hentered, fun n hn => ?_⟩
    · have hstmt : c.stmt (.enter p e.name (Name.envLocal p) kind args parent) m = (.ok (), m') := by
        rw [Run.Context.stmt]
        show (do
          let names ← liveFieldNames c.unit e.name
          let slots ← c.slots e.name names args
          enterEnv e.name (Name.envLocal p) slots parent : Run.Eval Unit) m₁ = _
        rw [Exec.bind_of_ok hnames, Exec.bind_of_ok hslots]
        exact hrun
      rw [Option.toList_some, Run.Context.stmts, Exec.bind_of_ok hstmt]
      rfl
    · exact ⟨p, ⟨x, h.plan, h.origin⟩, List.mem_singleton.mp hn⟩

end ClosureEnv.Run.Lasting
