import ClosureEnv.Proofs.Lasting.Frames
import ClosureEnv.Run.Body

/-!
# Points of a body

A machine and a store beside it in the middle of a body: they are a world, the frame of the machine
finds the environments in sight, and the visible variables have values (`Point`). A point remembers
where evaluation began, so that what is said of one step can be said of the next one.
-/

namespace ClosureEnv.Run.Lasting

open Lowered (Scheme Inside)

/-- A place in a body: a scope, and what is visible there. -/
structure Site (r : Scheme) (cx : Inside) (scope : ScopeId) (vis : VarId → Prop) : Prop where
  /-- The scope belongs to the body. -/
  inBody : InBody r cx scope
  /-- The variables can be seen from there. -/
  reach : r.tree.Reach scope vis

/-- The visible variables have values. -/
structure Sees (holds : VarId → ClosureId → Prop) (r : Scheme) (vis : VarId → Prop) (s : Store) :
    Prop where
  /-- Those that are in environments. -/
  captured : ∀ v p, vis v → r.plans.varPlan.find? v = some p → IsSet r.plans s.heap s.sight v
  /-- And those that are not. -/
  plain : ∀ v, vis v → r.plans.varPlan.find? v = none → ∃ y, s.locals.find? v = some y ∧
    Good r.tree r.plans s.heap (InSlot r.tree r.plans holds s.sight v) y

/-- A machine and a store at a place in a body, on the way from `m₀` and `s₀`. -/
structure Point (holds : VarId → ClosureId → Prop) (r : Scheme) (cx : Inside) (scope : ScopeId)
    (vis : VarId → Prop) (m₀ : Machine) (s₀ : Store) (m : Machine) (s : Store) : Prop where
  /-- They stand for one another. -/
  world : World holds r m s
  /-- The environments in sight are found. -/
  framed : Framed r cx (AroundEq r.tree.scopes · scope) m s
  /-- The visible variables have values. -/
  sees : Sees holds r vis s
  /-- The block has entered nothing since. -/
  entered : m.frame.entered = m₀.frame.entered
  /-- The same is in sight. -/
  sight : s.sight = s₀.sight
  /-- The heap has grown at most. -/
  grows : Grows s₀.heap s.heap

/-- How the evaluation of an expression ends, whose value comes from `src`. -/
structure Ends (holds : VarId → ClosureId → Prop) (r : Scheme) (cx : Inside) (scope : ScopeId)
    (vis : VarId → Prop) (src : ClosureId → Prop) (m₀ : Machine) (s₀ : Store) (x : Run.Val)
    (m : Machine) (y : Val) (s : Store) : Prop where
  /-- It ends at the same place. -/
  point : Point holds r cx scope vis m₀ s₀ m s
  /-- The values are alike. -/
  same : Same r x y
  /-- What the value keeps is there. -/
  good : Good r.tree r.plans s.heap (Kept r.tree r.plans src scope s.sight) y

/-- How a body returns, or a call ends. -/
structure Returns (holds : VarId → ClosureId → Prop) (r : Scheme) (s₀ : Store) (x : Run.Val)
    (m : Machine) (y : Val) (s : Store) : Prop where
  /-- The machine stands for the store. -/
  world : World holds r m s
  /-- The heap has grown at most. -/
  grows : Grows s₀.heap s.heap
  /-- The values are alike. -/
  same : Same r x y
  /-- The value may go anywhere. -/
  free : Free r.tree r.plans s.heap y

variable {holds : VarId → ClosureId → Prop} {r : Scheme} {cx : Inside} {scope : ScopeId}
  {vis vis' : VarId → Prop} {src src' : ClosureId → Prop} {m₀ m : Machine} {s₀ s : Store}

/-! ## Sights -/

/-- A variable that has a value has one wherever its environment is in sight. -/
theorem IsSet.congr (hr : r.Sound holds) {heap : Array Instance} {σ η : Sight} {v : VarId}
    {x : Variable} (hx : r.tree.vars[v]? = some x) (h : IsSet r.plans heap σ v)
    (hσ : SameSight r.tree r.plans x.scope σ η) : IsSet r.plans heap η v := by
  obtain ⟨p, a, i, hv, ha, hi, hset⟩ := h
  obtain ⟨o, ho, hclear⟩ := hr.plans.clear_of_varPlan hv hx
  exact ⟨p, a, i, hv, (hσ p o ho hclear.1).trans ha, hi, hset⟩

/-- What a slot may hold depends on what is in sight around its variable. -/
theorem InSlot.congr (hp : Preorder r.tree.scopes) {σ η : Sight} {v : VarId} {x : Variable}
    {held : Held} (hx : r.tree.vars[v]? = some x)
    (h : InSlot r.tree r.plans holds σ v held) (hσ : SameSight r.tree r.plans x.scope σ η) :
    InSlot r.tree r.plans holds η v held := by
  obtain ⟨y, hy, hk⟩ := h
  cases hx.symm.trans hy
  exact ⟨x, hx, hk.congr hp hσ⟩

namespace Sees

/-- Less is visible. -/
theorem imp (h : Sees holds r vis s) (himp : ∀ v, vis' v → vis v) : Sees holds r vis' s :=
  ⟨fun v p hv => h.captured v p (himp v hv), fun v hv => h.plain v (himp v hv)⟩

/-- What is visible from a scope stays visible while the environments around the scope do. -/
theorem congr (hr : r.Sound holds) (hreach : r.tree.Reach scope vis) (h : Sees holds r vis s)
    {s' : Store} (hσ : SameSight r.tree r.plans scope s.sight s'.sight)
    (hgrows : Grows s.heap s'.heap) (hlocals : s'.locals = s.locals) : Sees holds r vis s' := by
  have hp := hr.bound.preorder
  constructor
  · intro v p hv hvp
    obtain ⟨x, hx, hxs, -⟩ := hreach v hv
    exact ((h.captured v p hv hvp).mono hgrows).congr hr hx (hσ.mono hp hxs)
  · intro v hv hvp
    obtain ⟨x, hx, hxs, -⟩ := hreach v hv
    obtain ⟨y, hy, hgood⟩ := h.plain v hv hvp
    refine ⟨y, hlocals ▸ hy, (hgood.mono hgrows).imp fun held hslot => ?_⟩
    exact hslot.congr hp hx (hσ.mono hp hxs)

end Sees

/-! ## Points -/

/-- Values that are still to be used change nothing. -/
theorem World.pending (h : World holds r m s) (vs : List Run.Val) :
    World holds r { m with frame.pending := vs } s :=
  h.congr rfl rfl rfl rfl rfl rfl h.depth

/-- Values that are still to be used change nothing. -/
theorem Framed.pending {inside : ScopeId → Prop} (h : Framed r cx inside m s) (vs : List Run.Val) :
    Framed r cx inside { m with frame.pending := vs } s :=
  ⟨h.covers, h.locals, h.entered, h.param, h.outer⟩

namespace Point

/-- Evaluation begins anywhere. -/
theorem start (hw : World holds r m s) (hf : Framed r cx (AroundEq r.tree.scopes · scope) m s)
    (hs : Sees holds r vis s) : Point holds r cx scope vis m s m s :=
  ⟨hw, hf, hs, rfl, rfl, .refl _⟩

/-- One evaluation after another. -/
theorem trans {m' : Machine} {s' : Store} (h : Point holds r cx scope vis m₀ s₀ m s)
    (h' : Point holds r cx scope vis' m s m' s') : Point holds r cx scope vis' m₀ s₀ m' s' :=
  ⟨h'.world, h'.framed, h'.sees, h'.entered.trans h.entered, h'.sight.trans h.sight,
    h.grows.trans h'.grows⟩

/-- Evaluation goes on from here. -/
theorem restart (h : Point holds r cx scope vis m₀ s₀ m s) :
    Point holds r cx scope vis m s m s :=
  ⟨h.world, h.framed, h.sees, rfl, rfl, .refl _⟩

/-- Values that are still to be used change nothing. -/
theorem pending (h : Point holds r cx scope vis m₀ s₀ m s) (vs : List Run.Val) :
    Point holds r cx scope vis m₀ s₀ { m with frame.pending := vs } s :=
  ⟨h.world.pending vs, h.framed.pending vs, h.sees, h.entered, h.sight, h.grows⟩

/-- Less is visible. -/
theorem imp (h : Point holds r cx scope vis m₀ s₀ m s) (himp : ∀ v, vis' v → vis v) :
    Point holds r cx scope vis' m₀ s₀ m s :=
  ⟨h.world, h.framed, h.sees.imp himp, h.entered, h.sight, h.grows⟩

/-- A value that nothing can be called by. -/
theorem ends_of_data (h : Point holds r cx scope vis m₀ s₀ m s) {x : Run.Val} {y : Val}
    (hxy : Value.Data x y) : Ends holds r cx scope vis src m₀ s₀ x m y s :=
  ⟨h, hxy.alike _, .of_data hxy⟩

/-- A closure that may be called is alive: what it borrows is in a frame. -/
theorem alive (hr : r.Sound holds) (hsite : Site r cx scope vis)
    (h : Point holds r cx scope vis m₀ s₀ m s) {held : Held} {k : Closure}
    (hk : r.tree.closures[held.closure]? = some k)
    (hkept : Kept r.tree r.plans src scope s.sight held) :
    Alive r m.frames k.scope held.sight := by
  have hp := hr.bound.preorder
  have hpk := hr.bound.parentIn?_closure hk
  intro p o a ho hok hheap hnone ha
  rcases hkept with hesc | ⟨-, k', hk', hd, hne, hsame⟩
  · exact absurd hesc (hnone _ k hk hok (.inl rfl))
  · cases hk.symm.trans hk'
    -- the environment is in sight of the call, and nothing escapes from around it
    have hod := aroundEq_parent hp hpk hok
    have hos := hod.trans hp hd
    have ha' : s.sight.find? p = some a := (hsame p o ho hod).symm.trans ha
    have hnone' : r.tree.NoneEscape o scope :=
      (hnone.mono hp (.inl rfl) (.inr (around_parent hp hpk))).trans hp hne hd
    rcases AroundEq.total hp hsite.inBody.body.aroundEq hos with hco | hoc
    · refine ⟨m.frame, List.mem_cons_self, ?_⟩
      have hfind := (h.framed.entered p o ho hos hco).trans ha'
      exact List.mem_map_of_mem (f := Prod.snd) (SortedMap.mem_of_find? hfind)
    · obtain ⟨f, hf, haf⟩ := h.framed.outer p o a ho hoc hheap
        (hnone'.mono hp (.inl rfl) hsite.inBody.body.aroundEq) ha'
      exact ⟨f, List.mem_cons_of_mem _ hf, haf⟩

end Point

namespace Ends

/-- Values that are still to be used change nothing. -/
theorem pending {x : Run.Val} {y : Val} (h : Ends holds r cx scope vis src m₀ s₀ x m y s)
    (vs : List Run.Val) :
    Ends holds r cx scope vis src m₀ s₀ x { m with frame.pending := vs } y s :=
  ⟨h.point.pending vs, h.same, h.good⟩

/-- The value may come from more. -/
theorem imp {x : Run.Val} {y : Val} (h : Ends holds r cx scope vis src m₀ s₀ x m y s)
    (hsrc : ∀ c, src c → src' c) : Ends holds r cx scope vis src' m₀ s₀ x m y s :=
  ⟨h.point, h.same, h.good.imp fun _ hk => hk.imp hsrc⟩

/-- A value that comes from closures that escape only may go anywhere. -/
theorem free {x : Run.Val} {y : Val} (h : Ends holds r cx scope vis src m₀ s₀ x m y s)
    (hsrc : ∀ c, src c → r.tree.Escaping c) : Free r.tree r.plans s.heap y :=
  h.good.imp fun _ hk => hk.escaping hsrc

/-- Such a value is returned. -/
theorem returns {x : Run.Val} {y : Val} (h : Ends holds r cx scope vis src m₀ s₀ x m y s)
    (hsrc : ∀ c, src c → r.tree.Escaping c) : Returns holds r s₀ x m y s :=
  ⟨h.point.world, h.point.grows, h.same, h.free hsrc⟩

end Ends

/-- A body that has begun earlier. -/
theorem Returns.trans {s₁ : Store} {x : Run.Val} {y : Val} (hgrows : Grows s₀.heap s₁.heap)
    (h : Returns holds r s₁ x m y s) : Returns holds r s₀ x m y s :=
  ⟨h.world, hgrows.trans h.grows, h.same, h.free⟩

/-- Values that are still to be used change nothing. -/
theorem Returns.pending {x : Run.Val} {y : Val} (h : Returns holds r s₀ x m y s)
    (vs : List Run.Val) : Returns holds r s₀ x { m with frame.pending := vs } y s :=
  ⟨h.world.pending vs, h.grows, h.same, h.free⟩

/-- Something is only looked up while some values are still to be used. -/
theorem holding_run {α : Type} {vs : List Run.Val} {body : Run.Eval α} {a : α}
    (h : body { m with frame.pending := vs ++ m.frame.pending } =
      (.ok a, { m with frame.pending := vs ++ m.frame.pending })) :
    holding vs body m = (.ok a, m) := by
  unfold holding
  dsimp only
  rw [h]

/-- Evaluation while some values are still to be used. -/
theorem agree_holding {α α' : Type} {ok : α → Machine → α' → Store → Prop}
    {ret : Run.Val → Machine → Val → Store → Prop}
    (hok : ∀ a m a' s vs, ok a m a' s → ok a { m with frame.pending := vs } a' s)
    (hret : ∀ x m y s vs, ret x m y s → ret x { m with frame.pending := vs } y s)
    {l : List Run.Val} {body : Run.Eval α} {body' : Eval α'}
    (h : Agree ok ret (body { m with frame.pending := l ++ m.frame.pending }) (body' s)) :
    Agree ok ret (holding l body m) (body' s) := by
  exact h.atEnd (fun m₁ => { m₁ with frame.pending := m.frame.pending }) id
    (fun _ _ _ _ h => hok _ _ _ _ _ h) fun _ _ _ _ h => hret _ _ _ _ _ h

end ClosureEnv.Run.Lasting
