import ClosureEnv.Proofs.Lasting.Points

/-!
# Variables

A variable is read and written alike: from a field of the environment that is found, if the variable
is captured, and from the frame if it is not.
-/

namespace ClosureEnv.Run.Lasting

open Lowered (Scheme Inside)

variable {holds : VarId → ClosureId → Prop} {r : Scheme} {cx : Inside} {scope : ScopeId}
  {vis : VarId → Prop} {m₀ m : Machine} {s₀ s : Store} {v : VarId} {c : Run.Context}
  {ret : Run.Val → Machine → Val → Store → Prop}

/-- Where a variable is: in the frame, or in a field of an environment. -/
theorem place?_eq_ok {o : Option Lowered.Place} (h : r.place? cx v = .ok o) :
    (r.plans.varPlan.find? v = none ∧ o = none) ∨ ∃ p e f ref, r.plans.varPlan.find? v = some p ∧
      r.synthesis.envs[p]? = some e ∧ e.fieldFor? v = some f ∧ r.envRef cx p = .ok ref ∧
      o = some ⟨ref, f.name⟩ := by
  unfold Scheme.place? at h
  split at h
  · next hv =>
    cases h
    exact .inl ⟨hv, rfl⟩
  · next p hv =>
    obtain ⟨e, he, h⟩ := Lower.bind_eq_ok.mp h
    obtain ⟨f, hf, h⟩ := Lower.bind_eq_ok.mp h
    obtain ⟨ref, href, h⟩ := Lower.bind_eq_ok.mp h
    cases h
    exact .inr ⟨p, e, f, ref, hv, Scheme.env_eq_ok.mp he, Lower.orInconsistent_eq_ok.mp hf, href,
      rfl⟩

/-- A variable of the frame is read. -/
theorem readLocal_run {x : Run.Val} {name : String} (h : m.frame.locals.find? v = some x) :
    readLocal v name m = (.ok x, m) := by
  unfold readLocal
  rw [Exec.get_bind, h]
  rfl

/-- A field of an environment is read. -/
theorem load_ok {ref : Lowered.EnvRef} {a : Addr} {field : String} {x : Run.Val}
    (ha : m.resolve ref = .ok a) (hx : (m.object a).slots.find? field = some x) :
    m.load ⟨ref, field⟩ = .ok x := by
  unfold Machine.load
  simp only [ha, hx, bind, Except.bind]
  rfl

/-- A variable is read. -/
theorem readVar_run {t : ScopeTree} {ps : PlanTable} {y : Val} (h : s.read? ps v = some y) :
    readVar t ps v s = (.ok y, s) := by
  unfold readVar
  rw [Exec.get_bind, h]
  rfl

/-- A way leads to an environment. -/
theorem resolve_run {ref : Lowered.EnvRef} {a : Addr} (ha : m.resolve ref = .ok a) :
    Run.resolve ref m = (.ok a, m) := by
  show Exec.ofExcept (m.resolve ref) m = _
  rw [ha]
  rfl

/-- A field of an environment is written. -/
theorem store_run {ref : Lowered.EnvRef} {a : Addr} {field : String} {x : Run.Val}
    (ha : ({ m with frame.pending := [x] ++ m.frame.pending } : Machine).resolve ref = .ok a) :
    Run.store ⟨ref, field⟩ x m = (.ok (), m.store a field x) := by
  unfold Run.store
  rw [Exec.bind_of_ok (holding_run (resolve_run ha))]
  rfl

/-- A variable is written. -/
theorem writeVar_run {t : ScopeTree} {ps : PlanTable} {y : Val} {s' : Store}
    (h : s.write? ps v y = some s') : writeVar t ps v y s = (.ok (), s') := by
  unfold writeVar
  rw [Exec.get_bind, h]
  rfl

/-- A variable of the frame is written. -/
theorem writeVar_local {t : ScopeTree} {ps : PlanTable} (hv : ps.varPlan.find? v = none) (y : Val) :
    writeVar t ps v y s = (.ok (), { s with locals := s.locals.insert v y }) := by
  refine writeVar_run ?_
  unfold Store.write?
  rw [hv]

/-- A variable of an environment is written. -/
theorem writeVar_slot {t : ScopeTree} {ps : PlanTable} {p : PlanId} {a : Addr}
    (hv : ps.varPlan.find? v = some p) (ha : s.sight.find? p = some a) (y : Val) :
    writeVar t ps v y s = (.ok (), s.store a v y) := by
  refine writeVar_run ?_
  unfold Store.write?
  rw [hv]
  dsimp only
  rw [ha]
  rfl

/-- A variable of the frame that has been declared is written. -/
theorem assignLocal_run {x y : Run.Val} {name : String} (h : m.frame.locals.find? v = some y) :
    assignLocal v name x m = writeLocal v x m := by
  have hcontains : m.frame.locals.contains v = true := by
    unfold SortedMap.contains
    rw [h]
    rfl
  show (if m.frame.locals.contains v then writeLocal v x
    else Exec.fail (.undeclaredLocal name) : Run.Eval Unit) m = _
  rw [if_pos hcontains]

/-- The environment in sight that holds a variable. -/
structure Holder (r : Scheme) (s : Store) (m : Machine) (x : Variable) (ref : Lowered.EnvRef)
    (p : PlanId) (a : Addr) (i : Instance) : Prop where
  /-- It is in sight. -/
  sight : s.sight.find? p = some a
  /-- It is found. -/
  resolve : m.resolve ref = .ok a
  /-- It is on the heap. -/
  heap : s.heap[a]? = some i
  /-- It is for the plan. -/
  plan : i.plan = p
  /-- It sees what is seen around the variable. -/
  same : SameSight r.tree r.plans x.scope s.sight i.sight

namespace Point

variable (hr : r.Sound holds) (hsite : Site r cx scope vis)

include hr hsite

/-- The environment that holds a variable is found. -/
theorem exists_holder (h : Point holds r cx scope vis m₀ s₀ m s) {x : Variable} {p : PlanId}
    {ref : Lowered.EnvRef} (hx : r.tree.vars[v]? = some x)
    (hxs : AroundEq r.tree.scopes x.scope scope) (hv : r.plans.varPlan.find? v = some p)
    (href : r.envRef cx p = .ok ref) : ∃ a i, Holder r s m x ref p a i := by
  have hp := hr.bound.preorder
  obtain ⟨o, ho, hclear⟩ := hr.plans.clear_of_varPlan hv hx
  have hos := hclear.1.trans hp hxs
  obtain ⟨a, i, ha, hi, hip, hsame⟩ := h.framed.covers p o ho hos
  obtain ⟨a', e, ha', hres, -⟩ := h.framed.resolve hr h.world hsite.inBody (fun _ => id)
    (fun z hz => .inr (hz.trans_eq hp hsite.inBody.body.aroundEq)) ho hos href
  cases ha.symm.trans ha'
  exact ⟨a, i, ha, hres, hi, hip, hsame.of_clear hp hclear (.inl rfl)⟩

/-- A visible variable is read alike. -/
theorem read (h : Point holds r cx scope vis m₀ s₀ m s) (hv : vis v) {e : Lowered.Expr}
    (he : r.read cx v = .ok e) : Agree (Ends holds r cx scope vis (holds v) m₀ s₀) ret
      (c.expr e m) (readVar r.tree r.plans v s) := by
  have hp := hr.bound.preorder
  obtain ⟨x, hx, hxs, -⟩ := hsite.reach v hv
  -- whatever is found, it is a good value where it is read
  suffices hread : ∃ y z, c.expr e m = (.ok y, m) ∧ s.read? r.plans v = some z ∧ Same r y z ∧
      Good r.tree r.plans s.heap (InSlot r.tree r.plans holds s.sight v) z by
    obtain ⟨y, z, hy, hz, hyz, hgood⟩ := hread
    rw [hy, readVar_run hz]
    refine .ok ⟨h, hyz, hgood.imp fun held ⟨x', hx', hk⟩ => ?_⟩
    cases hx.symm.trans hx'
    exact hk.read hr.bound hsite.reach hv hx
  unfold Scheme.read at he
  obtain ⟨o, ho, he⟩ := Lower.bind_eq_ok.mp he
  rcases place?_eq_ok ho with ⟨hplain, rfl⟩ | ⟨p, t, f, ref, hvp, ht, hf, href, rfl⟩
  · obtain ⟨name, -, he⟩ := Lower.bind_eq_ok.mp he
    cases he
    obtain ⟨z, hz, hgood⟩ := h.sees.plain v hv hplain
    obtain ⟨y, hy, hyz⟩ := exists_of_rel (hz ▸ h.framed.locals v)
    refine ⟨y, z, ?_, ?_, hyz, hgood⟩
    · rw [Run.Context.expr]
      exact readLocal_run hy
    · unfold Store.read?
      rw [hplain]
      exact hz
  · -- The slot was filled by the time that the variable is visible.
    cases he
    obtain ⟨a, i, hholder⟩ := h.exists_holder hr hsite hx hxs hvp href
    obtain ⟨p', a', i', hvp', ha', hi', hset⟩ := h.sees.captured v p hv hvp
    cases hvp.symm.trans hvp'
    cases hholder.sight.symm.trans ha'
    cases hholder.heap.symm.trans hi'
    obtain ⟨z, hz⟩ := Option.isSome_iff_exists.mp hset
    have hslot := (h.world.objects a i hholder.heap).slots t v f (hholder.plan.symm ▸ ht) hf
    obtain ⟨y, hy, hyz⟩ := exists_of_rel (hz ▸ hslot)
    refine ⟨y, z, ?_, ?_, hyz, (h.world.slots a i v z hholder.heap hz).imp fun held hk =>
      hk.congr hp hx hholder.same.symm⟩
    · rw [Run.Context.expr]
      show Exec.ofExcept (m.load ⟨ref, f.name⟩) m = _
      rw [load_ok hholder.resolve hy]
      rfl
    · unfold Store.read? Store.holder?
      rw [hvp]
      dsimp only
      rw [hholder.sight]
      show (s.heap[a]?.bind fun i => i.slots.find? v) = _
      rw [hholder.heap]
      exact hz

/-- A variable of an environment gets a value. -/
theorem store (h : Point holds r cx scope vis m₀ s₀ m s) {x : Variable} {p : PlanId} {e : EnvType}
    {f : EnvField} {ref : Lowered.EnvRef} (hx : r.tree.vars[v]? = some x)
    (hxs : AroundEq r.tree.scopes x.scope scope) (hvp : r.plans.varPlan.find? v = some p)
    (he : r.synthesis.envs[p]? = some e) (hf : e.fieldFor? v = some f)
    (href : r.envRef cx p = .ok ref) {y : Run.Val} {z : Val} (hyz : Same r y z)
    (hz : Good r.tree r.plans s.heap (Kept r.tree r.plans (holds v) x.scope s.sight) z) :
    Agree (fun _ m _ s => Point holds r cx scope (fun w => vis w ∨ w = v) m₀ s₀ m s) ret
      (Run.store ⟨ref, f.name⟩ y m) (writeVar r.tree r.plans v z s) := by
  have hp := hr.bound.preorder
  obtain ⟨a, i, hholder⟩ := h.exists_holder hr hsite hx hxs hvp href
  -- The value is held while the environment is looked up, which finds the same one.
  obtain ⟨a', i', hholder'⟩ := (h.pending ([y] ++ m.frame.pending)).exists_holder hr hsite hx hxs
    hvp href
  cases hholder.sight.symm.trans hholder'.sight
  rw [store_run hholder'.resolve, writeVar_slot hvp hholder.sight]
  have hgrows := Grows.store s a v z
  refine .ok ⟨?_, ⟨h.framed.covers.mono hgrows, h.framed.locals, h.framed.entered, h.framed.param,
    h.framed.outer⟩, ⟨?_, ?_⟩, h.entered, h.sight, h.grows.trans hgrows⟩
  · exact h.world.store hr hholder.heap (hholder.plan.symm ▸ he) hf hyz
      (hz.imp fun held hk => ⟨x, hx, hk.congr hp hholder.same⟩)
  · rintro w q (hw | rfl) hwq
    · exact (h.sees.captured w q hw hwq).mono hgrows
    · refine ⟨p, a, { i with slots := i.slots.insert w z }, hvp, hholder.sight, ?_, ?_⟩
      · rw [getElem?_store hholder.heap, if_pos rfl]
      · dsimp only
        rw [SortedMap.find?_insert_self]
        rfl
  · rintro w (hw | rfl) hplain
    · obtain ⟨u, hu, hgood⟩ := h.sees.plain w hw hplain
      exact ⟨u, hu, hgood.mono hgrows⟩
    · rw [hvp] at hplain
      cases hplain

omit hr hsite in
/-- A variable of the frame gets a value. -/
theorem writeLocal (h : Point holds r cx scope vis m₀ s₀ m s) {x : Variable}
    (hx : r.tree.vars[v]? = some x) (hvp : r.plans.varPlan.find? v = none) {y : Run.Val} {z : Val}
    (hyz : Same r y z)
    (hz : Good r.tree r.plans s.heap (Kept r.tree r.plans (holds v) x.scope s.sight) z) :
    Agree (fun _ m _ s => Point holds r cx scope (fun w => vis w ∨ w = v) m₀ s₀ m s) ret
      (Run.writeLocal v y m) (writeVar r.tree r.plans v z s) := by
  rw [writeVar_local hvp]
  refine .ok ⟨h.world.congr rfl rfl rfl rfl rfl rfl h.world.depth, ⟨h.framed.covers, fun w => ?_,
    h.framed.entered, h.framed.param, h.framed.outer⟩, ⟨?_, ?_⟩, h.entered, h.sight, h.grows⟩
  · dsimp only
    by_cases hw : w = v
    · subst hw
      rw [SortedMap.find?_insert_self, SortedMap.find?_insert_self]
      exact .some hyz
    · rw [SortedMap.find?_insert_of_ne hw, SortedMap.find?_insert_of_ne hw]
      exact h.framed.locals w
  · rintro w q (hw | rfl) hwq
    · exact h.sees.captured w q hw hwq
    · rw [hvp] at hwq
      cases hwq
  · intro w hw hplain
    dsimp only
    by_cases hwv : w = v
    · subst hwv
      rw [SortedMap.find?_insert_self]
      exact ⟨z, rfl, hz.imp fun held hk => ⟨x, hx, hk⟩⟩
    · rw [SortedMap.find?_insert_of_ne hwv]
      exact h.sees.plain w (hw.resolve_right hwv) hplain

end Point

end ClosureEnv.Run.Lasting
