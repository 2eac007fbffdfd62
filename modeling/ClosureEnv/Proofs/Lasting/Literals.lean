import ClosureEnv.Proofs.Lasting.Variables

/-!
# Closure literals

The value of a closure literal: a machine makes the closure with the innermost environment that it
needs, and finds that environment, or else with an empty one (`Point.close`).
-/

namespace ClosureEnv.Run.Lasting

open Lowered (Scheme Inside)

variable {holds : VarId → ClosureId → Prop} {r : Scheme} {cx : Inside} {scope : ScopeId}
  {vis : VarId → Prop} {m₀ m : Machine} {s₀ s : Store} {u : LoweredUnit}

/-- The making of an empty environment leaves what is in sight. -/
theorem sight_bindEmpty (b : Option ClosureBinding) : (s.bindEmpty b).sight = s.sight := by
  unfold Store.bindEmpty
  split
  · split <;> rfl
  all_goals rfl

/-- The only instance of a type is noted. -/
theorem World.noteSingleton (hr : r.Sound holds) (h : World holds r m s) {p : PlanId} {e : EnvType}
    (he : r.synthesis.envs[p]? = some e) (a : Addr) :
    World holds r { m with singletons := m.singletons.insert e.name a }
      { s with singletons := s.singletons.insert p a } where
  size := h.size
  objects := h.objects
  slots := h.slots
  globals := h.globals
  global_free := h.global_free
  singletons q e' he' := by
    dsimp only
    by_cases hqp : q = p
    · subst hqp
      cases he.symm.trans he'
      rw [SortedMap.find?_insert_self, SortedMap.find?_insert_self]
    · have hne : e'.name ≠ e.name := by
        intro heq
        obtain ⟨hq, rfl⟩ := Array.getElem?_eq_some_iff.mp he'
        obtain ⟨hp, rfl⟩ := Array.getElem?_eq_some_iff.mp he
        have hlt (i : Nat) (hi : i < r.synthesis.envs.size) :
            i < (r.synthesis.envs.toList.map EnvType.name).length := by simpa using hi
        refine hqp ((@List.Nodup.getElem_inj_iff _ _ hr.synthesis.names q (hlt q hq) p
          (hlt p hp)).mp ?_)
        simpa using heq
      rw [SortedMap.find?_insert_of_ne hne, SortedMap.find?_insert_of_ne hqp]
      exact h.singletons q e' he'
  depth := h.depth

/-! ## Operands -/

/-- A closure that is made with an empty environment gets one of a plan without a scope. -/
theorem empty_of_binding (hr : r.Sound holds) {c : ClosureId} {p : PlanId} {b : Bool}
    (hb : r.plans.bindings.find? c = some (if b then .singleton p else .fresh p)) :
    ∃ x e, r.plans.plans[p]? = some x ∧ x.origin = none ∧ r.synthesis.envs[p]? = some e ∧
      e.isSingleton = b := by
  rcases hr.plans.binding c _ hb with ⟨d, hd, -⟩ | ⟨-, q, x, hx, ho, hbx⟩
  · cases b <;> cases hd
  · obtain ⟨e, he, hmade⟩ := hr.exists_env hx
    have hsingle := hmade.isSingleton
    cases hs : x.isSingleton <;> rw [hs] at hbx hsingle <;> cases b <;> cases hbx <;>
      exact ⟨x, e, hx, ho, he, hsingle⟩

/-- The way to an environment leads to a handle of it. -/
theorem operand_ref_run {ps : PlanTable} {d : PlanId} {x : Plan} {ref : Lowered.EnvRef} {a : Addr}
    (hx : ps.plans[d]? = some x) (ha : m.resolve ref = .ok a)
    (hkind : representation u ref.env = .ok x.repr) :
    Run.operand u (.ref ref) m = (.ok (handleOf ps d a), m) := by
  have hrepr : (Exec.ofExcept (representation u ref.env) : Run.Eval Representation) m =
      (.ok x.repr, m) := by
    rw [hkind]
    rfl
  unfold Run.operand handleOf
  dsimp only
  rw [Exec.bind_of_ok (resolve_run ha), Exec.bind_of_ok hrepr, hx, Option.map_some]
  clear hkind hrepr
  generalize x.repr = kind
  cases kind <;> rfl

/-- The only instance of a type is shared. -/
theorem operand_singleton_run {env : String} {a : Addr} {m' : Machine}
    (h : m.sharedInstance u env = (some a, m')) :
    Run.operand u (.singleton env) m = (.ok (.shared a), m') := by
  have hshared : (modifyGet fun m => m.sharedInstance u env : Run.Eval (Option Addr)) m =
      (.ok (some a), m') := by
    show (Except.ok (m.sharedInstance u env).1, (m.sharedInstance u env).2) = _
    rw [h]
  unfold Run.operand
  dsimp only
  rw [Exec.bind_of_ok hshared]
  rfl

namespace Point

variable (hr : r.Sound holds)

include hr

/-- An empty environment comes into existence. -/
theorem allocateEmpty (h : Point holds r cx scope vis m₀ s₀ m s) {p : PlanId} {x : Plan}
    (hx : r.plans.plans[p]? = some x) (hempty : x.origin = none) (name : String) :
    Point holds r cx scope vis m₀ s₀ (m.allocate ⟨name, [], none⟩).2
      { s with heap := s.heap.push ⟨p, [], []⟩ } := by
  have hgrows := Grows.push s.heap ⟨p, [], []⟩
  refine ⟨h.world.allocate ⟨fun e v f _ _ => .none, fun q hq => ?_⟩ fun v y hy => (by cases hy),
    ⟨h.framed.covers.mono hgrows, h.framed.locals, h.framed.entered, h.framed.param,
      h.framed.outer⟩, ⟨fun v q hv hq => (h.sees.captured v q hv hq).mono hgrows, fun v hv hp => ?_⟩,
    h.entered, h.sight, h.grows.trans hgrows⟩
  · obtain ⟨o, -, ⟨x', hx', ho⟩, -⟩ := hr.plans.linking.parent p q hq
    cases hx.symm.trans hx'
    rw [hempty] at ho
    cases ho
  · obtain ⟨y, hy, hgood⟩ := h.sees.plain v hv hp
    exact ⟨y, hy, hgood.mono hgrows⟩

/-- The only instance of a type is noted. -/
theorem noteSingleton (h : Point holds r cx scope vis m₀ s₀ m s) {p : PlanId} {e : EnvType}
    (he : r.synthesis.envs[p]? = some e) (a : Addr) : Point holds r cx scope vis m₀ s₀
      { m with singletons := m.singletons.insert e.name a }
      { s with singletons := s.singletons.insert p a } :=
  ⟨h.world.noteSingleton hr he a, ⟨h.framed.covers, h.framed.locals, h.framed.entered,
    h.framed.param, h.framed.outer⟩, ⟨h.sees.captured, h.sees.plain⟩, h.entered, h.sight, h.grows⟩

/-- The only instance of a type, built at its first use. -/
theorem sharedInstance (hu : Scheme.UnitOf r u) (h : Point holds r cx scope vis m₀ s₀ m s)
    {p : PlanId} {x : Plan} {e : EnvType} (hx : r.plans.plans[p]? = some x)
    (hempty : x.origin = none) (he : r.synthesis.envs[p]? = some e) (hsingle : e.isSingleton = true) :
    ∃ a m', m.sharedInstance u e.name = (some a, m') ∧
      Point holds r cx scope vis m₀ s₀ m' (s.bindEmpty (some (.singleton p))) := by
  have hworld := h.world.singletons p e he
  unfold Machine.sharedInstance Store.bindEmpty SortedMap.contains
  dsimp only
  cases hfind : s.singletons.find? p with
  | some a =>
    rw [hworld, hfind]
    exact ⟨a, m, rfl, h⟩
  | none =>
    rw [hworld, hfind]
    have hany : (u.envs.any fun e' => e'.name == e.name && e'.isSingleton) = true := by
      rw [hu.envs, List.any_eq_true]
      refine ⟨e, Array.mem_toList_iff.mpr (Array.mem_of_getElem? he), ?_⟩
      rw [hsingle, beq_self_eq_true]
      rfl
    dsimp only
    rw [if_pos hany]
    have hnote := (h.allocateEmpty hr hx hempty e.name).noteSingleton hr he m.heap.size
    exact ⟨m.heap.size, _, rfl, h.world.size ▸ hnote⟩

/-- The environment that a closure is made with. -/
theorem operand (hu : Scheme.UnitOf r u) (hsite : Site r cx scope vis)
    (h : Point holds r cx scope vis m₀ s₀ m s) {c : ClosureId} {k : Closure} {b : ClosureBinding}
    {op : Lowered.EnvOperand} (hk : r.tree.closures[c]? = some k) (hd : k.declaredIn = scope)
    (hb : r.plans.bindings.find? c = some b) (hop : r.operand cx b = .ok op) :
    ∃ handle m', Run.operand u op m = (.ok handle, m') ∧
      Point holds r cx scope vis m₀ s₀ m' (s.bindEmpty (some b)) ∧
      Keeps r handle ⟨c, s.sight⟩ := by
  have hp := hr.bound.preorder
  -- a closure that is made with an empty environment keeps no other
  have hkeeps (handle : Handle) (hno : ∀ d, b ≠ .direct d) : Keeps r handle ⟨c, s.sight⟩ :=
    fun d hd => absurd (Option.some.inj (hb.symm.trans hd)) (hno d)
  cases b with
  | direct d =>
    obtain ⟨ref, href, hop⟩ := Lower.bind_eq_ok.mp hop
    cases hop
    obtain ⟨o, ho, hos, -⟩ := hr.plans.handed_of_direct hr.bound hk hb
    rw [hd] at hos
    obtain ⟨a, e, ha, hres, he, hname⟩ := h.framed.resolve hr h.world hsite.inBody (fun _ => id)
      (fun z hz => .inr (hz.trans_eq hp hsite.inBody.body.aroundEq)) ho hos href
    obtain ⟨x, hx, -⟩ := ho
    have hkind : representation u ref.env = .ok x.repr := by
      rw [hname, hu.representation hr he, (hr.synthesis.env d x e hx he).kind]
    refine ⟨handleOf r.plans d a, m, ?_, h, fun d' hd' => ?_⟩
    · exact operand_ref_run hx hres hkind
    · cases hb.symm.trans hd'
      exact ⟨a, ha, rfl⟩
  | singleton p =>
    obtain ⟨e, he, hop⟩ := Lower.bind_eq_ok.mp hop
    cases hop
    obtain ⟨x, e', hx, ho, he', hsingle⟩ := empty_of_binding hr (b := true) hb
    cases (Scheme.env_eq_ok.mp he).symm.trans he'
    obtain ⟨a, m', hshared, hpoint⟩ := h.sharedInstance hr hu hx ho he' hsingle
    exact ⟨.shared a, m', operand_singleton_run hshared, hpoint, hkeeps _ fun d => (by simp)⟩
  | fresh p =>
    obtain ⟨e, he, hop⟩ := Lower.bind_eq_ok.mp hop
    cases hop
    obtain ⟨x, e', hx, ho, -⟩ := empty_of_binding hr (b := false) hb
    exact ⟨.shared m.heap.size, _, rfl, h.allocateEmpty hr hx ho e.name,
      hkeeps _ fun d => (by simp)⟩

/-- A closure literal has values that are alike. -/
theorem close (hu : Scheme.UnitOf r u) (hsite : Site r cx scope vis)
    (h : Point holds r cx scope vis m₀ s₀ m s) {c : ClosureId} {k : Closure} {b : ClosureBinding}
    {op : Lowered.EnvOperand} {name : String} (hk : r.tree.closures[c]? = some k)
    (hd : k.declaredIn = scope) (hneeds : ∀ v, r.tree.Needs c v → vis v)
    (hname : r.synthesis.lambdaNames.find? c = some name)
    (hb : r.plans.bindings.find? c = some b) (hop : r.operand cx b = .ok op)
    {cm : Run.Context} (hcm : cm.unit = u) {ret : Run.Val → Machine → Val → Store → Prop} :
    Agree (Ends holds r cx scope vis (· = c) m₀ s₀) ret (cm.expr (.makeClosure name op) m)
      (Lasting.close r.tree r.plans c s) := by
  have hp := hr.bound.preorder
  subst hcm
  obtain ⟨handle, m', hrun, hpoint, hkeeps⟩ := h.operand hr hu hsite hk hd hb hop
  have hlambda : name = Direct.lambdaName r.tree k :=
    Option.some.inj (hname.symm.trans (hr.synthesis.lambdas c k hk))
  have hclose : Lasting.close r.tree r.plans c s =
      (.ok (.closure name ⟨c, s.sight⟩), s.bindEmpty (some b)) := by
    show (pure (.closure (Direct.lambdaName r.tree (r.tree.closures[c]?.getD default))
      ⟨c, (s.bindEmpty (r.plans.bindings.find? c)).sight⟩) : Eval Val)
        (s.bindEmpty (r.plans.bindings.find? c)) = _
    rw [hb, hk, sight_bindEmpty, hlambda]
    rfl
  have hmake : cm.expr (.makeClosure name op) m = (.ok (.closure name handle), m') := by
    rw [Run.Context.expr, Exec.bind_of_ok hrun]
    rfl
  rw [hmake, hclose]
  refine .ok ⟨hpoint, .closure hkeeps, ⟨fun _ hx => (by cases hx), fun name' held hx => ?_⟩⟩
  cases hx
  refine ⟨.inr ⟨rfl, ?_⟩, ⟨k, hk, hlambda, ?_⟩, fun v hv => ?_⟩
  · rw [sight_bindEmpty, ← hd]
    exact Near.made hp hk
  · have hcovers := hpoint.framed.covers
    rw [sight_bindEmpty] at hcovers
    exact hd ▸ hcovers
  · -- What the closure needs is visible where it is made, and so has a value by now.
    obtain ⟨p, hvp⟩ := hr.plans.linking.placed.covered v ⟨c, hv⟩
    have hset := hpoint.sees.captured v p (hneeds v hv) hvp
    rw [sight_bindEmpty] at hset
    exact hset

end Point

end ClosureEnv.Run.Lasting
