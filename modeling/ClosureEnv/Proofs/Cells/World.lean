import ClosureEnv.Proofs.Lasting.Entry

/-!
# Cells and slots

A direct run gives each variable that is declared a cell, and a run beside lasting environments
keeps captured variables in slots. The cell of a captured variable has a home: the slot that it
stands for, which holds the same value and is the home of no other cell (`World`). The cell of a
variable that is not captured has none: nothing outside of its frame can tell what is in it
(`Later`).
-/

namespace ClosureEnv.Run.Cells

/-- The slots that cells stand for, each as a variable of an environment. -/
abbrev Homes := Direct.CellId → Option (Addr × VarId)

/-- One more cell has a home. -/
def Homes.settle (μ : Homes) (c : Direct.CellId) (a : Addr) (v : VarId) : Homes :=
  fun d => if d = c then some (a, v) else μ d

/-- A direct run and one beside lasting environments, with the homes of cells. -/
structure Twin where
  homes : Homes
  direct : Direct.Store
  lasting : Lasting.Store

variable {t : ScopeTree} {ps : PlanTable} {μ μ' : Homes}

/-! ## Values -/

/-- The cell in sight of a variable stands for its slot in sight. -/
def Linked (ps : PlanTable) (μ : Homes) (δ : Direct.Sight) (σ : Lasting.Sight) (v : VarId) : Prop :=
  ∃ p c a, ps.varPlan.find? v = some p ∧ δ.find? v = some c ∧ σ.find? p = some a ∧
    μ c = some (a, v)

/-- A closure is known, and what it needs is the same on both sides. -/
structure SameHeld (t : ScopeTree) (ps : PlanTable) (μ : Homes) (h : Direct.Held)
    (k : Lasting.Held) : Prop where
  /-- It is the same closure. -/
  closure : h.closure = k.closure
  /-- The tree has it. -/
  known : ∃ x, t.closures[k.closure]? = some x
  /-- The cells of what it needs stand for the slots. -/
  needs : ∀ v, t.Needs k.closure v → Linked ps μ h.sight k.sight v

/-- Values that nobody can tell apart. -/
structure Same (t : ScopeTree) (ps : PlanTable) (μ : Homes) (x : Direct.Val) (y : Lasting.Val) :
    Prop where
  /-- They differ in what closures keep at most. -/
  alike : Value.Alike (fun _ => SameHeld t ps μ) x y
  /-- A function is there. -/
  fn : ∀ name, y = .fn name → ∃ f ∈ t.fns, f.name = name ∧ f.isSynthetic = false

/-- What has a home keeps it. -/
def Homes.Le (μ μ' : Homes) : Prop :=
  ∀ c l, μ c = some l → μ' c = some l

/-- What is linked stays linked. -/
theorem Linked.mono {δ : Direct.Sight} {σ : Lasting.Sight} {v : VarId}
    (h : Linked ps μ δ σ v) (hle : μ.Le μ') : Linked ps μ' δ σ v := by
  obtain ⟨p, c, a, hv, hc, ha, hμ⟩ := h
  exact ⟨p, c, a, hv, hc, ha, hle c _ hμ⟩

namespace Same

variable {x : Direct.Val} {y : Lasting.Val}

/-- Values that are the same stay the same. -/
theorem mono (h : Same t ps μ x y) (hle : μ.Le μ') : Same t ps μ' x y :=
  ⟨h.alike.imp fun _ _ _ hk => ⟨hk.closure, hk.known, fun v hv => (hk.needs v hv).mono hle⟩, h.fn⟩

/-- Equal values that nothing can be called by. -/
theorem of_data (h : Value.Data x y) : Same t ps μ x y where
  alike := h.alike _
  fn name hy := by
    subst hy
    cases h

/-- Whatever closures keep. -/
theorem loose (h : Same t ps μ x y) : Value.Alike (fun _ _ _ => True) x y :=
  h.alike.imp fun _ _ _ _ => trivial

end Same

/-! ## New cells -/

section

variable {d : Direct.Store} {v : VarId} {x : Direct.Val}

/-- What is declared has the new cell. -/
theorem find?_declare_self : (d.declare v x).sight.find? v = some d.cells.size :=
  SortedMap.find?_insert_self _ _ _

/-- Other variables have the cells that they had. -/
theorem find?_declare_of_ne {w : VarId} (hw : w ≠ v) :
    (d.declare v x).sight.find? w = d.sight.find? w :=
  SortedMap.find?_insert_of_ne hw _ _

/-- The new cell holds the value. -/
theorem getElem?_declare_self : (d.declare v x).cells[d.cells.size]? = some x := by
  unfold Direct.Store.declare
  dsimp only
  rw [Array.getElem?_push, if_pos rfl]

/-- Other cells hold what they held. -/
theorem getElem?_declare_of_lt {c : Direct.CellId} (hc : c < d.cells.size) :
    (d.declare v x).cells[c]? = d.cells[c]? := by
  unfold Direct.Store.declare
  dsimp only
  rw [Array.getElem?_push, if_neg (Nat.ne_of_lt hc)]

/-- There are no fewer cells. -/
theorem size_le_declare : d.cells.size ≤ (d.declare v x).cells.size := by
  simp [Direct.Store.declare]

end

/-! ## Worlds -/

/-- A direct run stands for one beside lasting environments. -/
structure World (t : ScopeTree) (ps : PlanTable) (X : Twin) : Prop where
  /-- A cell holds what its home holds. -/
  cells : ∀ c a v, X.homes c = some (a, v) → ∃ i x y, X.lasting.heap[a]? = some i ∧
    X.direct.cells[c]? = some x ∧ i.slots.find? v = some y ∧ Same t ps X.homes x y
  /-- No two cells have one home. -/
  apart : ∀ c d l, X.homes c = some l → X.homes d = some l → c = d
  /-- The globals are the same. -/
  globals : ∀ name, Option.Rel (Same t ps X.homes) (X.direct.globals.find? name)
    (X.lasting.globals.find? name)
  /-- As many calls are going on. -/
  depth : X.direct.depth = X.lasting.depth

namespace World

variable {d : Direct.Store} {s : Lasting.Store}

/-- A cell with a home is there. -/
theorem cell_lt (h : World t ps ⟨μ, d, s⟩) {c : Direct.CellId} {l : Addr × VarId}
    (hc : μ c = some l) : c < d.cells.size := by
  obtain ⟨i, x, y, -, hx, -⟩ := h.cells c l.1 l.2 hc
  exact (Array.getElem?_eq_some_iff.mp hx).1

/-- A home is there. -/
theorem home_lt (h : World t ps ⟨μ, d, s⟩) {c : Direct.CellId} {a : Addr} {v : VarId}
    (hc : μ c = some (a, v)) : a < s.heap.size := by
  obtain ⟨i, x, y, hi, -⟩ := h.cells c a v hc
  exact (Array.getElem?_eq_some_iff.mp hi).1

/-- What a world says of the parts of the two states. -/
theorem congr {d' : Direct.Store} {s' : Lasting.Store} (h : World t ps ⟨μ, d, s⟩)
    (hd : d'.cells = d.cells) (hs : s'.heap = s.heap) (hdg : d'.globals = d.globals)
    (hsg : s'.globals = s.globals) (hdepth : d'.depth = s'.depth) : World t ps ⟨μ, d', s'⟩ where
  cells c a v hc := by
    dsimp only
    rw [hd, hs]
    exact h.cells c a v hc
  apart := h.apart
  globals name := by
    dsimp only
    rw [hdg, hsg]
    exact h.globals name
  depth := hdepth

/-- A new environment comes into existence. -/
theorem push (h : World t ps ⟨μ, d, s⟩) (i : Lasting.Instance) :
    World t ps ⟨μ, d, { s with heap := s.heap.push i }⟩ where
  cells c a v hc := by
    obtain ⟨j, x, y, hj, hrest⟩ := h.cells c a v hc
    refine ⟨j, x, y, ?_, hrest⟩
    dsimp only
    rw [Array.getElem?_push, if_neg (Nat.ne_of_lt (h.home_lt hc))]
    exact hj
  apart := h.apart
  globals := h.globals
  depth := h.depth

/-- A slot that is no home gets a value. -/
theorem fill (h : World t ps ⟨μ, d, s⟩) {a : Addr} {v : VarId} (hfree : ∀ c, μ c ≠ some (a, v))
    (y : Lasting.Val) : World t ps ⟨μ, d, s.store a v y⟩ where
  cells c b w hc := by
    obtain ⟨i, x, z, hi, hx, hz, hxz⟩ := h.cells c b w hc
    dsimp only
    rw [Lasting.getElem?_store hi]
    split
    · next heq =>
      subst heq
      refine ⟨_, x, z, rfl, hx, ?_, hxz⟩
      have hne : w ≠ v := fun heq => hfree c (heq ▸ hc)
      rw [SortedMap.find?_insert_of_ne hne]
      exact hz
    · exact ⟨i, x, z, rfl, hx, hz, hxz⟩
  apart := h.apart
  globals := h.globals
  depth := h.depth

/-- A variable gets a new cell without a home. -/
theorem declare (h : World t ps ⟨μ, d, s⟩) (v : VarId) (x : Direct.Val) :
    World t ps ⟨μ, d.declare v x, s⟩ where
  cells c a w hc := by
    obtain ⟨i, z, y, hi, hz, hrest⟩ := h.cells c a w hc
    exact ⟨i, z, y, hi, (getElem?_declare_of_lt (h.cell_lt hc)).trans hz, hrest⟩
  apart := h.apart
  globals := h.globals
  depth := h.depth

/-- A new cell has no home yet. -/
theorem homeless (h : World t ps ⟨μ, d, s⟩) {c : Direct.CellId} (hc : d.cells.size ≤ c) :
    μ c = none := by
  cases hμ : μ c with
  | none => rfl
  | some l => exact absurd (h.cell_lt hμ) (Nat.not_lt.mpr hc)

/-- More homes than before. -/
theorem le_settle (h : World t ps ⟨μ, d, s⟩) (a : Addr) (v : VarId) :
    μ.Le (μ.settle d.cells.size a v) := by
  intro c l hc
  unfold Homes.settle
  rw [if_neg (Nat.ne_of_lt (h.cell_lt hc))]
  exact hc

/-- A variable gets a new cell that stands for a slot with the same value. -/
theorem settle (h : World t ps ⟨μ, d, s⟩) {a : Addr} {v : VarId} {i : Lasting.Instance}
    {x : Direct.Val} {y : Lasting.Val} (hfree : ∀ c, μ c ≠ some (a, v)) (hi : s.heap[a]? = some i)
    (hy : i.slots.find? v = some y) (hxy : Same t ps μ x y) :
    World t ps ⟨μ.settle d.cells.size a v, d.declare v x, s⟩ := by
  have hle := h.le_settle a v
  -- A cell is at home where it was, unless it is the new one.
  have hcases (c : Direct.CellId) (l : Addr × VarId) (hc : μ.settle d.cells.size a v c = some l) :
      (c = d.cells.size ∧ l = (a, v)) ∨ (c ≠ d.cells.size ∧ μ c = some l) := by
    unfold Homes.settle at hc
    split at hc
    · next heq => exact .inl ⟨heq, (Option.some.inj hc).symm⟩
    · next hne => exact .inr ⟨hne, hc⟩
  constructor
  · intro c b w hc
    rcases hcases c _ hc with ⟨rfl, heq⟩ | ⟨hne, hc⟩
    · cases heq
      exact ⟨i, x, y, hi, getElem?_declare_self, hy, hxy.mono hle⟩
    · obtain ⟨j, z, u, hj, hz, hu, hzu⟩ := (h.declare v x).cells c b w hc
      exact ⟨j, z, u, hj, hz, hu, hzu.mono hle⟩
  · intro c c' l hc hc'
    -- The slot was free, so that no older cell shares the home of the new one.
    rcases hcases c l hc with ⟨rfl, rfl⟩ | ⟨-, hc⟩ <;>
      rcases hcases c' _ hc' with ⟨rfl, heq⟩ | ⟨-, hc'⟩
    · rfl
    · exact absurd hc' (hfree c')
    · exact absurd (heq ▸ hc) (hfree c)
    · exact h.apart c c' l hc hc'
  · intro name
    have hglobal := h.globals name
    dsimp only at hglobal ⊢
    generalize s.globals.find? name = z at hglobal
    show Option.Rel _ (d.globals.find? name) z
    generalize d.globals.find? name = w at hglobal
    cases hglobal with
    | none => exact .none
    | some hzw => exact .some (hzw.mono hle)
  · exact h.depth

/-- A cell and its home get the same value. -/
theorem write (h : World t ps ⟨μ, d, s⟩) {c : Direct.CellId} {a : Addr} {v : VarId}
    {x : Direct.Val} {y : Lasting.Val} (hc : μ c = some (a, v)) (hxy : Same t ps μ x y) :
    World t ps ⟨μ, { d with cells := d.cells.setIfInBounds c x }, s.store a v y⟩ where
  cells c' b w hc' := by
    obtain ⟨i, z, u, hi, hz, hu, hzu⟩ := h.cells c' b w hc'
    dsimp only
    rw [Lasting.getElem?_store hi, Array.getElem?_setIfInBounds]
    by_cases hcc : c = c'
    · subst hcc
      cases hc.symm.trans hc'
      rw [if_pos rfl, if_pos rfl, if_pos (h.cell_lt hc)]
      exact ⟨_, x, y, rfl, rfl, SortedMap.find?_insert_self _ _ _, hxy⟩
    · rw [if_neg hcc]
      split
      · next heq =>
        subst heq
        refine ⟨_, z, u, rfl, hz, ?_, hzu⟩
        have hne : w ≠ v := fun heq => hcc (h.apart c c' _ hc (heq ▸ hc'))
        rw [SortedMap.find?_insert_of_ne hne]
        exact hu
      · exact ⟨i, z, u, rfl, hz, hu, hzu⟩
  apart := h.apart
  globals := h.globals
  depth := h.depth

/-- A cell without a home gets a value. -/
theorem writeHomeless (h : World t ps ⟨μ, d, s⟩) {c : Direct.CellId} (hc : μ c = none)
    (x : Direct.Val) : World t ps ⟨μ, { d with cells := d.cells.setIfInBounds c x }, s⟩ where
  cells c' b w hc' := by
    obtain ⟨i, z, u, hi, hz, hrest⟩ := h.cells c' b w hc'
    refine ⟨i, z, u, hi, ?_, hrest⟩
    have hne : c ≠ c' := by
      rintro rfl
      cases hc.symm.trans hc'
    dsimp only
    rw [Array.getElem?_setIfInBounds, if_neg hne]
    exact hz
  apart := h.apart
  globals := h.globals
  depth := h.depth

/-- A global gets a value. -/
theorem writeGlobal (h : World t ps ⟨μ, d, s⟩) (name : String) {x : Direct.Val} {y : Lasting.Val}
    (hxy : Same t ps μ x y) : World t ps ⟨μ, { d with globals := d.globals.insert name x },
      { s with globals := s.globals.insert name y }⟩ where
  cells := h.cells
  apart := h.apart
  globals other := by
    dsimp only
    rw [SortedMap.find?_insert, SortedMap.find?_insert]
    split
    · exact .some hxy
    · exact h.globals other
  depth := h.depth

end World

end ClosureEnv.Run.Cells
