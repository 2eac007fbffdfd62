import ClosureEnv.Proofs.Cells.World

/-!
# Points of a direct run

A direct run and one beside lasting environments in the middle of a body: the visible variables have
the same values, in cells that stand for slots or in cells that belong to the frame alone (`Point`).
`Reached` says how one point is reached from another.
-/

namespace ClosureEnv.Run.Cells

open Lowered (Scheme)

/-- The cell of a variable belongs to a frame, whose cells begin at `base`, and to it alone. -/
def Private (r : Scheme) (base : Nat) (X : Twin) (v : VarId) : Prop :=
  ∃ c x y, X.direct.sight.find? v = some c ∧ base ≤ c ∧ X.homes c = none ∧
    X.direct.cells[c]? = some x ∧ X.lasting.locals.find? v = some y ∧
      Same r.tree r.plans X.homes x y

/-- Two runs at a place in a body where some variables are visible, in a frame whose cells begin at
`base`. -/
structure Point (r : Scheme) (vis : VarId → Prop) (base : Nat) (X : Twin) : Prop where
  /-- They stand for one another. -/
  world : World r.tree r.plans X
  /-- Visible variables in slots have cells that stand for those. -/
  captured : ∀ v p, vis v → r.plans.varPlan.find? v = some p →
    Linked r.plans X.homes X.direct.sight X.lasting.sight v
  /-- The others have cells of the frame. -/
  plain : ∀ v, vis v → r.plans.varPlan.find? v = none → Private r base X v
  /-- And no two of them have one cell. -/
  apart : ∀ v w c, vis v → vis w → r.plans.varPlan.find? v = none →
    r.plans.varPlan.find? w = none → X.direct.sight.find? v = some c →
      X.direct.sight.find? w = some c → v = w
  /-- The frame has begun. -/
  base : base ≤ X.direct.cells.size

/-- The scopes at or around a scope. -/
abbrev Within (r : Scheme) (scope : ScopeId) (o : ScopeId) : Prop :=
  AroundEq r.tree.scopes o scope

/-- A variable has its slot in an environment that is in sight, from a scope `inside`. -/
def Seat (r : Scheme) (inside : ScopeId → Prop) (σ : Lasting.Sight) (v : VarId) (a : Addr) : Prop :=
  ∃ p o, r.plans.varPlan.find? v = some p ∧ r.plans.From p o ∧ inside o ∧ σ.find? p = some a

/-- What happens where the environments of the scopes `inside` are in sight and the variables `ds`
are declared. -/
structure Later (r : Scheme) (inside : ScopeId → Prop) (base : Nat) (ds : List VarId) (X Y : Twin) :
    Prop where
  /-- Homes stay. -/
  homes : X.homes.Le Y.homes
  /-- New ones are those of new cells, in new environments or for what is declared. -/
  new : ∀ c a v, Y.homes c = some (a, v) → X.homes c = some (a, v) ∨
    X.direct.cells.size ≤ c ∧ (X.lasting.heap.size ≤ a ∨
      v ∈ ds ∧ Seat r inside X.lasting.sight v a)
  /-- There are as many cells at least. -/
  cells : X.direct.cells.size ≤ Y.direct.cells.size
  /-- There are as many environments at least. -/
  heap : X.lasting.heap.size ≤ Y.lasting.heap.size
  /-- The private cells of other frames are as they were. -/
  kept : ∀ c < base, Y.homes c = none → Y.direct.cells[c]? = X.direct.cells[c]?

/-- A point that is reached from another one in the same scope by a part of a body that declares the
variables `ds`. -/
structure Reached (r : Scheme) (scope : ScopeId) (vis : VarId → Prop) (base : Nat)
    (ds : List VarId) (X Y : Twin) : Prop where
  /-- It is a point. -/
  point : Point r vis base Y
  /-- Little has changed. -/
  later : Later r (Within r scope) base ds X Y
  /-- The cells of other variables are the same. -/
  direct : ∀ v, v ∉ ds → Y.direct.sight.find? v = X.direct.sight.find? v
  /-- The same environments are in sight. -/
  lasting : Y.lasting.sight = X.lasting.sight

/-- How a part of a body ends, with results of which `P` holds. -/
def Gives {α α' : Type} (r : Scheme) (scope : ScopeId) (vis : VarId → Prop) (base : Nat)
    (ds : List VarId) (X : Twin) (P : Homes → α → α' → Prop) (a : α) (d : Direct.Store) (a' : α')
    (s : Lasting.Store) : Prop :=
  ∃ μ, Reached r scope vis base ds X ⟨μ, d, s⟩ ∧ P μ a a'

/-- How a part of a body returns. -/
def Leaves (r : Scheme) (inside : ScopeId → Prop) (base : Nat) (ds : List VarId) (X : Twin)
    (x : Direct.Val) (d : Direct.Store) (y : Lasting.Val) (s : Lasting.Store) : Prop :=
  ∃ μ, World r.tree r.plans ⟨μ, d, s⟩ ∧ Later r inside base ds X ⟨μ, d, s⟩ ∧
    Same r.tree r.plans μ x y

/-- Two evaluations of a part of a body in some scope end in the same way. -/
abbrev AgreeAt {α α' : Type} (r : Scheme) (scope : ScopeId) (vis : VarId → Prop) (base : Nat)
    (ds : List VarId) (X : Twin) (P : Homes → α → α' → Prop) :
    Except (Stop Direct.Held) α × Direct.Store → Except (Stop Lasting.Held) α' × Lasting.Store →
      Prop :=
  Agree (Gives r scope vis base ds X P) (Leaves r (Within r scope) base ds X)

variable {r : Scheme} {inside inside' : ScopeId → Prop} {scope : ScopeId}
  {vis vis' : VarId → Prop} {base : Nat} {ds es : List VarId} {X Y Z : Twin}

/-! ## One part after another -/

namespace Later

/-- Nothing has happened. -/
theorem refl (r : Scheme) (inside : ScopeId → Prop) (base : Nat) (X : Twin) :
    Later r inside base [] X X :=
  ⟨fun _ _ h => h, fun _ _ _ h => .inl h, Nat.le_refl _, Nat.le_refl _, fun _ _ _ => rfl⟩

/-- Only cells, environments and homes matter. -/
theorem congr {μ : Homes} {d d' : Direct.Store} {s s' : Lasting.Store}
    (h : Later r inside base ds X ⟨μ, d, s⟩) (hd : d'.cells = d.cells) (hs : s'.heap = s.heap) :
    Later r inside base ds X ⟨μ, d', s'⟩ where
  homes := h.homes
  new := h.new
  cells := by
    dsimp only
    rw [hd]
    exact h.cells
  heap := by
    dsimp only
    rw [hs]
    exact h.heap
  kept c hc hμ := by
    dsimp only
    rw [hd]
    exact h.kept c hc hμ

/-- More may be declared, and more may be in sight. -/
theorem imp (h : Later r inside base ds X Y)
    (himp : ∀ v ∈ ds, ∀ a, Seat r inside X.lasting.sight v a →
      v ∈ es ∧ Seat r inside' X.lasting.sight v a) : Later r inside' base es X Y where
  homes := h.homes
  new c a v hc := (h.new c a v hc).imp_right fun hnew =>
    ⟨hnew.1, hnew.2.imp_right fun hv => himp v hv.1 a hv.2⟩
  cells := h.cells
  heap := h.heap
  kept := h.kept

/-- What has happened since a state has happened since one with the same cells and environments. -/
theorem since (h : Later r inside base [] Y Z) (hμ : Y.homes = X.homes)
    (hd : Y.direct.cells = X.direct.cells) (hs : Y.lasting.heap = X.lasting.heap) :
    Later r inside base [] X Z := by
  refine ⟨hμ ▸ h.homes, fun c a v hc => ?_, hd ▸ h.cells, hs ▸ h.heap, hd ▸ h.kept⟩
  have hnew := h.new c a v hc
  rw [hμ, hd, hs] at hnew
  exact hnew.imp_right fun hnew => ⟨hnew.1, hnew.2.imp_right fun hv => nomatch hv.1⟩

/-- A cell that has no home had none. -/
theorem homeless (h : Later r inside base ds X Y) {c : Direct.CellId} (hc : Y.homes c = none) :
    X.homes c = none := by
  cases hx : X.homes c with
  | none => rfl
  | some l => cases hc.symm.trans (h.homes c l hx)

/-- A cell that was there without a home has none yet. -/
theorem still_homeless (h : Later r inside base ds X Y) {c : Direct.CellId}
    (hc : X.homes c = none) (hlt : c < X.direct.cells.size) : Y.homes c = none := by
  cases hy : Y.homes c with
  | none => rfl
  | some l =>
    rcases h.new c l.1 l.2 hy with hx | ⟨hle, -⟩
    · cases hc.symm.trans hx
    · exact absurd hlt (Nat.not_lt.mpr hle)

/-- One part after another. -/
theorem trans (h : Later r inside base ds X Y) (hσ : Y.lasting.sight = X.lasting.sight)
    (h' : Later r inside base es Y Z) : Later r inside base (ds ++ es) X Z where
  homes c l hc := h'.homes c l (h.homes c l hc)
  new c a v hc := by
    rcases h'.new c a v hc with hy | ⟨hle, hnew⟩
    · exact (h.new c a v hy).imp_right fun hnew =>
        ⟨hnew.1, hnew.2.imp_right fun hv => ⟨List.mem_append_left _ hv.1, hv.2⟩⟩
    · exact .inr ⟨h.cells.trans hle,
        hnew.imp h.heap.trans fun hv => ⟨List.mem_append_right _ hv.1, hσ ▸ hv.2⟩⟩
  cells := h.cells.trans h'.cells
  heap := h.heap.trans h'.heap
  kept c hc hz := (h'.kept c hc hz).trans (h.kept c hc (h'.homeless hz))

end Later

/-- Evaluation begins anywhere. -/
theorem Point.reached (h : Point r vis base X) (scope : ScopeId) :
    Reached r scope vis base [] X X :=
  ⟨h, .refl _ _ _ _, fun _ _ => rfl, rfl⟩

/-- Less is visible. -/
theorem Point.imp (h : Point r vis base X) (himp : ∀ v, vis' v → vis v) : Point r vis' base X :=
  ⟨h.world, fun v p hv => h.captured v p (himp v hv), fun v hv => h.plain v (himp v hv),
    fun v w c hv hw => h.apart v w c (himp v hv) (himp w hw), h.base⟩

namespace Reached

/-- One part after another. -/
theorem trans (h : Reached r scope vis base ds X Y) (h' : Reached r scope vis' base es Y Z) :
    Reached r scope vis' base (ds ++ es) X Z where
  point := h'.point
  later := h.later.trans h.lasting h'.later
  direct v hv := by
    rw [List.mem_append, not_or] at hv
    exact (h'.direct v hv.2).trans (h.direct v hv.1)
  lasting := h'.lasting.trans h.lasting

/-- Less is visible. -/
theorem imp (h : Reached r scope vis base ds X Y) (himp : ∀ v, vis' v → vis v) :
    Reached r scope vis' base ds X Y :=
  ⟨h.point.imp himp, h.later, h.direct, h.lasting⟩

/-- More may be declared. -/
theorem mono (h : Reached r scope vis base ds X Y) (hsub : ds ⊆ es) :
    Reached r scope vis base es X Y :=
  ⟨h.point, h.later.imp fun _ hv _ ha => ⟨hsub hv, ha⟩, fun v hv => h.direct v fun h => hv (hsub h),
    h.lasting⟩

/-- A value that nothing can be called by. -/
theorem gives_data (h : Reached r scope vis base ds X Y) {x : Direct.Val} {y : Lasting.Val}
    (hxy : Value.Data x y) :
    Gives r scope vis base ds X (Same r.tree r.plans) x Y.direct y Y.lasting :=
  ⟨Y.homes, h, .of_data hxy⟩

end Reached

namespace Gives

variable {α α' : Type} {P : Homes → α → α' → Prop} {a : α} {a' : α'} {x : Direct.Val}
  {y : Lasting.Val} {d : Direct.Store} {s : Lasting.Store}

/-- What is reached further on is reached from before. -/
theorem trans (h : Reached r scope vis base ds X Y) (h' : Gives r scope vis' base es Y P a d a' s) :
    Gives r scope vis' base (ds ++ es) X P a d a' s := by
  obtain ⟨μ, hreached, hP⟩ := h'
  exact ⟨μ, h.trans hreached, hP⟩

/-- More may be declared. -/
theorem mono (h : Gives r scope vis base ds X P a d a' s) (hsub : ds ⊆ es) :
    Gives r scope vis base es X P a d a' s := by
  obtain ⟨μ, hreached, hP⟩ := h
  exact ⟨μ, hreached.mono hsub, hP⟩

/-- A value that is returned. -/
theorem leaves (h : Gives r scope vis base ds X (Same r.tree r.plans) x d y s) :
    Leaves r (Within r scope) base ds X x d y s := by
  obtain ⟨μ, hreached, hsame⟩ := h
  exact ⟨μ, hreached.point.world, hreached.later, hsame⟩

end Gives

namespace Leaves

variable {x : Direct.Val} {y : Lasting.Val} {d d' : Direct.Store} {s s' : Lasting.Store}

/-- What returns further on returns from before. -/
theorem trans (h : Reached r scope vis base ds X Y)
    (h' : Leaves r (Within r scope) base es Y x d y s) :
    Leaves r (Within r scope) base (ds ++ es) X x d y s := by
  obtain ⟨μ, hworld, hlater, hsame⟩ := h'
  exact ⟨μ, hworld, h.later.trans h.lasting hlater, hsame⟩

/-- What is in sight does not matter for a value that has been returned. -/
theorem congr (h : Leaves r inside base ds X x d y s) (hd : d'.cells = d.cells)
    (hs : s'.heap = s.heap) (hdg : d'.globals = d.globals) (hsg : s'.globals = s.globals)
    (hdepth : d.depth = s.depth → d'.depth = s'.depth) : Leaves r inside base ds X x d' y s' := by
  obtain ⟨μ, hworld, hlater, hsame⟩ := h
  exact ⟨μ, hworld.congr hd hs hdg hsg (hdepth hworld.depth), hlater.congr hd hs, hsame⟩

/-- More may be declared. -/
theorem mono (h : Leaves r inside base ds X x d y s) (hsub : ds ⊆ es) :
    Leaves r inside base es X x d y s := by
  obtain ⟨μ, hworld, hlater, hsame⟩ := h
  exact ⟨μ, hworld, hlater.imp fun _ hv _ ha => ⟨hsub hv, ha⟩, hsame⟩

/-- What has happened since a state has happened since one with the same cells and environments. -/
theorem since (h : Leaves r inside base [] Y x d y s) (hμ : Y.homes = X.homes)
    (hd : Y.direct.cells = X.direct.cells) (hs : Y.lasting.heap = X.lasting.heap) :
    Leaves r inside base [] X x d y s := by
  obtain ⟨μ, hworld, hlater, hsame⟩ := h
  exact ⟨μ, hworld, hlater.since hμ hd hs, hsame⟩

end Leaves

/-- A point is reached, whatever new homes there are. -/
def Arrives (r : Scheme) (scope : ScopeId) (vis : VarId → Prop) (base : Nat) (ds : List VarId)
    (X : Twin) (d : Direct.Store) (s : Lasting.Store) : Prop :=
  ∃ μ, Reached r scope vis base ds X ⟨μ, d, s⟩

/-- Whatever the closures of a value keep. -/
theorem Gives.loose {x : Direct.Val} {y : Lasting.Val} {d : Direct.Store} {s : Lasting.Store}
    (h : Gives r scope vis base ds X (Same r.tree r.plans) x d y s) :
    Value.Alike (fun _ _ _ => True) x y ∧ Arrives r scope vis base ds X d s := by
  obtain ⟨μ, hreached, hsame⟩ := h
  exact ⟨hsame.loose, μ, hreached⟩

/-! ## Agreement in a body -/

section

variable {α α' β β' : Type} {P : Homes → α → α' → Prop} {Q : Homes → β → β' → Prop}

/-- More may be declared. -/
theorem AgreeAt.mono {p : Except (Stop Direct.Held) α × Direct.Store}
    {p' : Except (Stop Lasting.Held) α' × Lasting.Store} (h : AgreeAt r scope vis base ds X P p p')
    (hsub : ds ⊆ es) : AgreeAt r scope vis base es X P p p' :=
  h.imp (fun _ _ _ _ h => h.mono hsub) fun _ _ _ _ h => h.mono hsub

/-- What agrees from a point on agrees from an earlier one on. -/
theorem AgreeAt.trans {p : Except (Stop Direct.Held) α × Direct.Store}
    {p' : Except (Stop Lasting.Held) α' × Lasting.Store} (h : Reached r scope vis base ds X Y)
    (h' : AgreeAt r scope vis' base es Y P p p') : AgreeAt r scope vis' base (ds ++ es) X P p p' :=
  h'.imp (fun _ _ _ _ => .trans h) fun _ _ _ _ => .trans h

/-- Two parts of a body, one after the other. -/
theorem AgreeAt.bind {x : Direct.Eval α} {x' : Lasting.Eval α'} {f : α → Direct.Eval β}
    {f' : α' → Lasting.Eval β'}
    (h : AgreeAt r scope vis base ds X P (x X.direct) (x' X.lasting))
    (hf : ∀ Y a a', Reached r scope vis base ds X Y → P Y.homes a a' →
      AgreeAt r scope vis' base es Y Q (f a Y.direct) (f' a' Y.lasting)) :
    AgreeAt r scope vis' base (ds ++ es) X Q ((x >>= f) X.direct) ((x' >>= f') X.lasting) := by
  refine Agree.bind (h.imp (fun _ _ _ _ => id)
    fun _ _ _ _ hret => hret.mono (List.subset_append_left ds es)) ?_
  rintro a d a' s ⟨μ, hreached, hP⟩
  exact (hf ⟨μ, d, s⟩ a a' hreached hP).trans hreached

end

end ClosureEnv.Run.Cells
