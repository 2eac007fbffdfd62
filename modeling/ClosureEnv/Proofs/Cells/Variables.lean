import ClosureEnv.Proofs.Cells.Points

/-!
# Variables in cells

A variable is read, declared and assigned alike: in its cell, and in its slot or in the frame.
-/

namespace ClosureEnv.Run.Cells

open Lowered (Scheme)

/-- As far as their environments come from scopes `inside`, the slots of some variables are there
and no cell stands for them yet. -/
def Unborn (r : Scheme) (inside : ScopeId → Prop) (X : Twin) (vs : List VarId) : Prop :=
  ∀ v ∈ vs, ∀ p o, r.plans.varPlan.find? v = some p → r.plans.From p o → inside o →
    ∃ a, X.lasting.sight.find? p = some a ∧ a < X.lasting.heap.size ∧ ∀ c, X.homes c ≠ some (a, v)

variable {holds : VarId → ClosureId → Prop} {r : Scheme} {inside inside' : ScopeId → Prop}
  {scope : ScopeId} {vis vis' : VarId → Prop} {base : Nat} {ds vs ws : List VarId} {X Y : Twin}
  {v : VarId} {x : Direct.Val} {y : Lasting.Val}

namespace Unborn

/-- Fewer variables, or fewer scopes. -/
theorem imp (h : Unborn r inside X vs) (hsub : ws ⊆ vs) (himp : ∀ o, inside' o → inside o) :
    Unborn r inside' X ws :=
  fun v hv p o hp ho ho' => h v (hsub hv) p o hp ho (himp o ho')

/-- The first of some variables. -/
theorem left (h : Unborn r inside X (vs ++ ws)) : Unborn r inside X vs :=
  h.imp (List.subset_append_left _ _) fun _ => id

/-- The last of some variables. -/
theorem right (h : Unborn r inside X (vs ++ ws)) : Unborn r inside X ws :=
  h.imp (List.subset_append_right _ _) fun _ => id

/-- What is not born yet is not born by what is declared besides. -/
theorem reached (h : Unborn r inside X vs) (hXY : Reached r scope vis base ds X Y)
    (hds : ∀ v ∈ ds, ∀ w ∈ vs, v ≠ w) : Unborn r inside Y vs := by
  intro v hv p o hp ho hin
  obtain ⟨a, ha, hlt, hfree⟩ := h v hv p o hp ho hin
  refine ⟨a, hXY.lasting ▸ ha, Nat.lt_of_lt_of_le hlt hXY.later.heap, fun c hc => ?_⟩
  rcases hXY.later.new c a v hc with hold | ⟨-, hnew | ⟨hmem, -⟩⟩
  · exact hfree c hold
  · exact absurd hlt (Nat.not_lt.mpr hnew)
  · exact hds v hmem v hv rfl

/-- The slot of a variable of the scope. -/
theorem exists_seat (hr : r.Sound holds) (h : Unborn r (Within r scope) X vs) (hv : v ∈ vs)
    {u : Variable} (hu : r.tree.vars[v]? = some u) (hus : u.scope = scope) {p : PlanId}
    (hp : r.plans.varPlan.find? v = some p) : ∃ a, Seat r (Within r scope) X.lasting.sight v a ∧
      a < X.lasting.heap.size ∧ ∀ c, X.homes c ≠ some (a, v) := by
  obtain ⟨o, ho, hclear⟩ := hr.plans.clear_of_varPlan hp hu
  obtain ⟨a, ha, hlt, hfree⟩ := h v hv p o hp ho (hus ▸ hclear.1)
  exact ⟨a, ⟨p, o, hp, ho, hus ▸ hclear.1, ha⟩, hlt, hfree⟩

end Unborn

/-- A private cell is there. -/
theorem Private.exists_lt (h : Private r base X v) :
    ∃ c, X.direct.sight.find? v = some c ∧ c < X.direct.cells.size := by
  obtain ⟨c, x, y, hc, -, -, hx, -⟩ := h
  exact ⟨c, hc, (Array.getElem?_eq_some_iff.mp hx).1⟩

/-- What `modify` does. -/
theorem modify_run {ε σ : Type} (f : σ → σ) (s : σ) :
    (modify f : Exec ε σ Unit) s = (.ok (), f s) :=
  rfl

namespace Point

/-- A visible variable has the same value on both sides. -/
theorem read (h : Point r vis base X) (hv : vis v) : ∃ x y, X.direct.read? v = some x ∧
    X.lasting.read? r.plans v = some y ∧ Same r.tree r.plans X.homes x y := by
  unfold Direct.Store.read? Lasting.Store.read?
  cases hp : r.plans.varPlan.find? v with
  | none =>
    obtain ⟨c, x, y, hc, -, -, hx, hy, hxy⟩ := h.plain v hv hp
    refine ⟨x, y, ?_, hy, hxy⟩
    rw [hc]
    exact hx
  | some p =>
    obtain ⟨p', c, a, hp', hc, ha, hμ⟩ := h.captured v p hv hp
    cases hp.symm.trans hp'
    obtain ⟨i, x, y, hi, hx, hy, hxy⟩ := h.world.cells c a v hμ
    refine ⟨x, y, ?_, ?_, hxy⟩
    · rw [hc]
      exact hx
    · unfold Lasting.Store.holder?
      dsimp only
      rw [ha]
      show (X.lasting.heap[a]?.bind fun i => i.slots.find? v) = _
      rw [hi]
      exact hy

/-- A visible variable is read alike. -/
theorem agree_read (h : Point r vis base X) (hv : vis v) :
    AgreeAt r scope vis base [] X (Same r.tree r.plans) (Direct.readVar r.tree v X.direct)
      (Lasting.readVar r.tree r.plans v X.lasting) := by
  obtain ⟨x, y, hx, hy, hxy⟩ := h.read hv
  have hdirect : Direct.readVar r.tree v X.direct = (.ok x, X.direct) := by
    unfold Direct.readVar
    rw [Exec.get_bind, hx]
    rfl
  rw [hdirect, Lasting.readVar_run hy]
  exact .ok ⟨X.homes, h.reached scope, hxy⟩

/-- A slot that is no home gets a value. -/
theorem fill (h : Point r vis base X) {a : Addr} (hfree : ∀ c, X.homes c ≠ some (a, v))
    (y : Lasting.Val) :
    Reached r scope vis base [] X ⟨X.homes, X.direct, X.lasting.store a v y⟩ :=
  ⟨⟨h.world.fill hfree y, h.captured, h.plain, h.apart, h.base⟩,
    ⟨fun _ _ hc => hc, fun _ _ _ hc => .inl hc, Nat.le_refl _, by simp [Lasting.Store.store],
      fun _ _ _ => rfl⟩, fun _ _ => rfl, rfl⟩

/-- A variable of an environment is declared whose slot has its value: the new cell stands for the
slot. -/
theorem settle (h : Point r vis base X) {a : Addr} {i : Lasting.Instance}
    (hseat : Seat r (Within r scope) X.lasting.sight v a) (hi : X.lasting.heap[a]? = some i)
    (hy : i.slots.find? v = some y) (hfree : ∀ c, X.homes c ≠ some (a, v))
    (hxy : Same r.tree r.plans X.homes x y) :
    Reached r scope (fun w => vis w ∨ w = v) base [v] X
      ⟨X.homes.settle X.direct.cells.size a v, X.direct.declare v x, X.lasting⟩ := by
  have hle := h.world.le_settle a v
  obtain ⟨p, -, hp, -, -, ha⟩ := id hseat
  -- only `v` is in an environment here
  have hne {w : VarId} (hw : r.plans.varPlan.find? w = none) : w ≠ v := by
    rintro rfl
    cases hp.symm.trans hw
  refine ⟨⟨h.world.settle hfree hi hy hxy, ?_, ?_, ?_, h.base.trans size_le_declare⟩,
    ⟨hle, ?_, size_le_declare, Nat.le_refl _, ?_⟩, ?_, rfl⟩
  · -- The new variable is at home in the slot, and the others are where they were.
    intro w q hw hq
    by_cases hwv : w = v
    · subst hwv
      exact ⟨p, X.direct.cells.size, a, hp, find?_declare_self, ha, if_pos rfl⟩
    · obtain ⟨q', c, b, hq', hc, hb, hμ⟩ := h.captured w q (hw.resolve_right hwv) hq
      exact ⟨q', c, b, hq', (find?_declare_of_ne hwv).trans hc, hb, hle c _ hμ⟩
  · intro w hw hq
    obtain ⟨c, z, u, hc, hbase, hμ, hz, hu, hzu⟩ := h.plain w (hw.resolve_right (hne hq)) hq
    have hclt : c < X.direct.cells.size := (Array.getElem?_eq_some_iff.mp hz).1
    exact ⟨c, z, u, (find?_declare_of_ne (hne hq)).trans hc, hbase,
      (if_neg (Nat.ne_of_lt hclt)).trans hμ, (getElem?_declare_of_lt hclt).trans hz, hu,
      hzu.mono hle⟩
  · intro w w' c hw hw' hq hq' hc hc'
    dsimp only at hc hc'
    rw [find?_declare_of_ne (hne hq)] at hc
    rw [find?_declare_of_ne (hne hq')] at hc'
    exact h.apart w w' c (hw.resolve_right (hne hq)) (hw'.resolve_right (hne hq')) hq hq' hc hc'
  · -- The only home that is new is that of the new cell.
    intro c b w hc
    dsimp only at hc
    unfold Homes.settle at hc
    split at hc
    · next heq =>
      cases hc
      exact .inr ⟨Nat.le_of_eq heq.symm, .inr ⟨List.mem_singleton_self _, hseat⟩⟩
    · exact .inl hc
  · exact fun c hc _ => getElem?_declare_of_lt (Nat.lt_of_lt_of_le hc h.base)
  · exact fun w hw => find?_declare_of_ne fun heq => hw (List.mem_singleton.mpr heq)

/-- A variable of an environment is declared: its slot gets its value, and its new cell stands for
the slot. -/
theorem declare_captured (h : Point r vis base X) {a : Addr}
    (hseat : Seat r (Within r scope) X.lasting.sight v a) (hlt : a < X.lasting.heap.size)
    (hfree : ∀ c, X.homes c ≠ some (a, v)) (hxy : Same r.tree r.plans X.homes x y) :
    Reached r scope (fun w => vis w ∨ w = v) base [v] X
      ⟨X.homes.settle X.direct.cells.size a v, X.direct.declare v x, X.lasting.store a v y⟩ := by
  have hfill : Reached r scope vis base [] X ⟨X.homes, X.direct, X.lasting.store a v y⟩ :=
    h.fill hfree y
  have hslot := Lasting.getElem?_store (Array.getElem?_eq_getElem hlt) a v y
  rw [if_pos rfl] at hslot
  exact hfill.trans
    (hfill.point.settle hseat hslot (SortedMap.find?_insert_self _ _ _) hfree hxy)

/-- A variable of the frame is declared: its new cell is private. -/
theorem declare_plain (h : Point r vis base X) (hp : r.plans.varPlan.find? v = none)
    (hxy : Same r.tree r.plans X.homes x y) {locals : SortedMap VarId Lasting.Val}
    (hlocals : ∀ w, vis w ∨ w = v →
      locals.find? w = if w = v then some y else X.lasting.locals.find? w) :
    Reached r scope (fun w => vis w ∨ w = v) base [v] X
      ⟨X.homes, X.direct.declare v x, { X.lasting with locals }⟩ := by
  -- an older variable has an older cell
  have hold {w : VarId} (hw : vis w) (hq : r.plans.varPlan.find? w = none) :
      X.direct.sight.find? w ≠ some X.direct.cells.size := fun hc => by
    obtain ⟨c, hc', hclt⟩ := (h.plain w hw hq).exists_lt
    cases hc.symm.trans hc'
    exact Nat.lt_irrefl _ hclt
  refine ⟨⟨(h.world.declare v x).congr rfl rfl rfl rfl h.world.depth, ?_, ?_, ?_,
    h.base.trans size_le_declare⟩,
    ⟨fun _ _ hc => hc, fun _ _ _ hc => .inl hc, size_le_declare, Nat.le_refl _, ?_⟩, ?_, rfl⟩
  · intro w q hw hq
    have hwv : w ≠ v := by
      rintro rfl
      cases hp.symm.trans hq
    obtain ⟨q', c, b, hq', hc, hb, hμ⟩ := h.captured w q (hw.resolve_right hwv) hq
    exact ⟨q', c, b, hq', (find?_declare_of_ne hwv).trans hc, hb, hμ⟩
  · intro w hw hq
    have hloc := hlocals w hw
    by_cases hwv : w = v
    · subst hwv
      rw [if_pos rfl] at hloc
      exact ⟨X.direct.cells.size, x, y, find?_declare_self, h.base,
        h.world.homeless (Nat.le_refl _), getElem?_declare_self, hloc, hxy⟩
    · rw [if_neg hwv] at hloc
      obtain ⟨c, z, u, hc, hbase, hμ, hz, hu, hzu⟩ := h.plain w (hw.resolve_right hwv) hq
      have hclt : c < X.direct.cells.size := (Array.getElem?_eq_some_iff.mp hz).1
      exact ⟨c, z, u, (find?_declare_of_ne hwv).trans hc, hbase, hμ,
        (getElem?_declare_of_lt hclt).trans hz, hloc.trans hu, hzu⟩
  · intro w w' c hw hw' hq hq' hc hc'
    dsimp only at hc hc'
    -- Two variables could share a cell only if one of them is new and the other is not.
    by_cases hwv : w = v <;> by_cases hwv' : w' = v
    · rw [hwv, hwv']
    · rw [hwv, find?_declare_self, Option.some.injEq] at hc
      subst hc
      rw [find?_declare_of_ne hwv'] at hc'
      exact absurd hc' (hold (hw'.resolve_right hwv') hq')
    · rw [hwv', find?_declare_self, Option.some.injEq] at hc'
      subst hc'
      rw [find?_declare_of_ne hwv] at hc
      exact absurd hc (hold (hw.resolve_right hwv) hq)
    · rw [find?_declare_of_ne hwv] at hc
      rw [find?_declare_of_ne hwv'] at hc'
      exact h.apart w w' c (hw.resolve_right hwv) (hw'.resolve_right hwv') hq hq' hc hc'
  · exact fun c hc _ => getElem?_declare_of_lt (Nat.lt_of_lt_of_le hc h.base)
  · exact fun w hw => find?_declare_of_ne fun heq => hw (List.mem_singleton.mpr heq)

/-- A variable of the scope is declared alike. -/
theorem agree_declare (h : Point r vis base X) (hr : r.Sound holds)
    (hunborn : Unborn r (Within r scope) X [v]) {u : Variable} (hu : r.tree.vars[v]? = some u)
    (hus : u.scope = scope) (hxy : Same r.tree r.plans X.homes x y) :
    AgreeAt r scope (fun w => vis w ∨ w = v) base [v] X (fun _ _ _ => True)
      ((modify fun d => d.declare v x : Direct.Eval Unit) X.direct)
      (Lasting.writeVar r.tree r.plans v y X.lasting) := by
  rw [modify_run]
  cases hp : r.plans.varPlan.find? v with
  | none =>
    rw [Lasting.writeVar_local hp]
    refine .ok ⟨X.homes, h.declare_plain hp hxy fun w _ => ?_, trivial⟩
    split
    · next heq =>
      subst heq
      exact SortedMap.find?_insert_self _ _ _
    · next hne => exact SortedMap.find?_insert_of_ne hne _ _
  | some p =>
    obtain ⟨a, hseat, hlt, hfree⟩ := hunborn.exists_seat hr (List.mem_singleton_self _) hu hus hp
    obtain ⟨p', -, hp', -, -, ha⟩ := id hseat
    rw [Lasting.writeVar_slot hp' ha]
    exact .ok ⟨_, h.declare_captured hseat hlt hfree hxy, trivial⟩

/-- A variable of an environment is assigned in its cell and in its slot. -/
theorem assign_captured (h : Point r vis base X) {c : Direct.CellId} {a : Addr}
    (hμ : X.homes c = some (a, v)) (hxy : Same r.tree r.plans X.homes x y) :
    Reached r scope vis base [] X ⟨X.homes,
      { X.direct with cells := X.direct.cells.setIfInBounds c x }, X.lasting.store a v y⟩ := by
  have hcell {c' : Direct.CellId} (hc' : X.homes c' = none) :
      (X.direct.cells.setIfInBounds c x)[c']? = X.direct.cells[c']? := by
    have hne : c ≠ c' := by
      rintro rfl
      cases hμ.symm.trans hc'
    rw [Array.getElem?_setIfInBounds, if_neg hne]
  refine ⟨⟨h.world.write hμ hxy, h.captured, fun w hw hq => ?_, h.apart, ?_⟩,
    ⟨fun _ _ hc => hc, fun _ _ _ hc => .inl hc, ?_, ?_, fun c' _ hc' => hcell hc'⟩,
    fun _ _ => rfl, rfl⟩
  · obtain ⟨c', z, u, hc, hbase, hnone, hz, hu, hzu⟩ := h.plain w hw hq
    exact ⟨c', z, u, hc, hbase, hnone, (hcell hnone).trans hz, hu, hzu⟩
  · simpa using h.base
  · simp
  · simp [Lasting.Store.store]

/-- A variable of the frame is assigned in its cell and in the frame. -/
theorem assign_plain (h : Point r vis base X) (hv : vis v) (hp : r.plans.varPlan.find? v = none)
    {c : Direct.CellId} (hc : X.direct.sight.find? v = some c)
    (hxy : Same r.tree r.plans X.homes x y) :
    Reached r scope vis base [] X ⟨X.homes,
      { X.direct with cells := X.direct.cells.setIfInBounds c x },
      { X.lasting with locals := X.lasting.locals.insert v y }⟩ := by
  obtain ⟨c', z, u, hc', hbase, hμ, hz, -⟩ := h.plain v hv hp
  cases hc.symm.trans hc'
  have hlt : c < X.direct.cells.size := (Array.getElem?_eq_some_iff.mp hz).1
  have hcell {c' : Direct.CellId} (hne : c ≠ c') :
      (X.direct.cells.setIfInBounds c x)[c']? = X.direct.cells[c']? := by
    rw [Array.getElem?_setIfInBounds, if_neg hne]
  refine ⟨⟨(h.world.writeHomeless hμ x).congr rfl rfl rfl rfl h.world.depth, h.captured,
    fun w hw hq => ?_, h.apart, ?_⟩, ⟨fun _ _ hc => hc, fun _ _ _ hc => .inl hc, ?_, Nat.le_refl _,
    fun c' hc' _ => hcell (Nat.ne_of_gt (Nat.lt_of_lt_of_le hc' hbase))⟩, fun _ _ => rfl, rfl⟩
  · by_cases hwv : w = v
    · subst hwv
      refine ⟨c, x, y, hc, hbase, hμ, ?_, SortedMap.find?_insert_self _ _ _, hxy⟩
      dsimp only
      rw [Array.getElem?_setIfInBounds, if_pos rfl, if_pos hlt]
    · obtain ⟨c', z, u, hcw, hbase', hμ', hz', hu, hzu⟩ := h.plain w hw hq
      -- Variables that are not captured do not share cells.
      have hne : c ≠ c' := by
        rintro rfl
        exact hwv (h.apart w v c hw hv hq hp hcw hc)
      exact ⟨c', z, u, hcw, hbase', hμ', (hcell hne).trans hz',
        (SortedMap.find?_insert_of_ne hwv _ _).trans hu, hzu⟩
  · simpa using h.base
  · simp

/-- A visible variable is assigned alike. -/
theorem agree_assign (h : Point r vis base X) (hv : vis v)
    (hxy : Same r.tree r.plans X.homes x y) :
    AgreeAt r scope vis base [] X (fun _ _ _ => True) (Direct.assignVar r.tree v x X.direct)
      (Lasting.writeVar r.tree r.plans v y X.lasting) := by
  have hdirect {c : Direct.CellId} (hc : X.direct.sight.find? v = some c) :
      Direct.assignVar r.tree v x X.direct =
        (.ok (), { X.direct with cells := X.direct.cells.setIfInBounds c x }) := by
    unfold Direct.assignVar Direct.Store.write?
    rw [Exec.get_bind, hc]
    rfl
  cases hp : r.plans.varPlan.find? v with
  | none =>
    obtain ⟨c, -, -, hc, -⟩ := h.plain v hv hp
    rw [hdirect hc, Lasting.writeVar_local hp]
    exact .ok ⟨_, h.assign_plain hv hp hc hxy, trivial⟩
  | some p =>
    obtain ⟨p', c, a, hp', hc, ha, hμ⟩ := h.captured v p hv hp
    cases hp.symm.trans hp'
    rw [hdirect hc, Lasting.writeVar_slot hp ha]
    exact .ok ⟨_, h.assign_captured hμ hxy, trivial⟩

end Point

end ClosureEnv.Run.Cells
