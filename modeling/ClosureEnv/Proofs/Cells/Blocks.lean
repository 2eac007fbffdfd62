import ClosureEnv.Proofs.Bound.Declared
import ClosureEnv.Proofs.Cells.Variables
import ClosureEnv.Proofs.Plan.Reach

/-!
# Blocks in cells

A block that opens a scope brings the slots of what it declares into existence, which are nobody's
home then, unless they are part of an environment around it; once it is left, what it has declared
is out of sight (`agree_block`). Nothing that is declared in the scope of a body or of a loop is
part of an environment around it (`not_around_of_varPlan`).
-/

namespace ClosureEnv

/-- What belongs to a scope that is no block, or to one below it, has no slot in an environment
around it. -/
theorem PlanTable.Sound.not_around_of_varPlan {t : ScopeTree} {ps : PlanTable} (hps : ps.Sound t)
    {i o : ScopeId} {x : Scope} (hx : t.scopes[i]? = some x) (hkind : x.kind ≠ .block) {v : VarId}
    (hv : t.BelowEq i v) {p : PlanId} (hp : ps.varPlan.find? v = some p) (ho : ps.From p o) :
    ¬ Around t.scopes o i := by
  obtain ⟨y, hy, hiy⟩ := hv
  obtain ⟨o', ho', -, hclear⟩ := hps.clear_of_varPlan hp hy
  cases ho.unique ho'
  intro hoi
  obtain ⟨⟨x', hx', hblock⟩, -⟩ := hclear i hoi hiy
  cases hx.symm.trans hx'
  exact hkind hblock

namespace Run.Cells

open Lowered (Scheme)

variable {holds : VarId → ClosureId → Prop} {r : Scheme} {vis vis' : VarId → Prop} {base : Nat}
  {ds vs : List VarId} {X Y : Twin} {scope i : ScopeId}

/-- Two runs once a scope is entered. -/
def Twin.enter (X : Twin) (ps : PlanTable) (i : ScopeId) (params : List VarId) : Twin :=
  { X with lasting := X.lasting.enter ps i params }

/-- There are as many environments at least. -/
theorem heap_size_le_enter (s : Lasting.Store) (ps : PlanTable) (i : ScopeId)
    (params : List VarId) : s.heap.size ≤ (s.enter ps i params).heap.size := by
  unfold Lasting.Store.enter
  split
  · exact Nat.le_refl _
  · simp

section

variable (hr : r.Sound holds)

include hr

/-- The environment of a scope comes into existence with its entry. -/
theorem find?_enter_self {p : PlanId} (hp : r.plans.From p i) (s : Lasting.Store)
    (params : List VarId) : (s.enter r.plans i params).sight.find? p = some s.heap.size ∧
      s.heap.size < (s.enter r.plans i params).heap.size := by
  obtain ⟨x, hx, ho⟩ := hp
  rw [Lasting.enter_of_from hr hx ho]
  exact ⟨SortedMap.find?_insert_self _ _ _, by simp⟩

/-- The environments around a scope are in sight as before its entry. -/
theorem find?_enter_of_around {p : PlanId} {o : ScopeId} (hp : r.plans.From p o)
    (ho : Around r.tree.scopes o i) (s : Lasting.Store) (params : List VarId) :
    (s.enter r.plans i params).sight.find? p = s.sight.find? p :=
  Lasting.sameSight_enter hr ho p o hp (.inl rfl)

/-- The entry of a scope does not change what cells stand for. -/
theorem World.enter (h : World r.tree r.plans X) (i : ScopeId) (params : List VarId) :
    World r.tree r.plans (X.enter r.plans i params) := by
  unfold Twin.enter
  by_cases hi : ∃ p, r.plans.From p i
  · obtain ⟨p, x, hx, ho⟩ := hi
    rw [Lasting.enter_of_from hr hx ho]
    exact (h.push _).congr rfl rfl rfl rfl h.depth
  · rw [Lasting.enter_of_not_from fun p hp => hi ⟨p, hp⟩]
    exact h

/-- What is unborn as far as environments around a scope go is unborn once the scope is entered: its
environment is new. -/
theorem Unborn.enter (h : Unborn r (Around r.tree.scopes · i) X vs) (hw : World r.tree r.plans X)
    (params : List VarId) : Unborn r (Within r i) (X.enter r.plans i params) vs := by
  rintro v hv p o hp ho (rfl | hoi)
  · obtain ⟨ha, hlt⟩ := find?_enter_self hr ho X.lasting params
    exact ⟨_, ha, hlt, fun c hc => Nat.lt_irrefl _ (hw.home_lt hc)⟩
  · obtain ⟨a, ha, hlt, hfree⟩ := h v hv p o hp ho hoi
    exact ⟨a, (find?_enter_of_around hr ho hoi X.lasting params).trans ha,
      Nat.lt_of_lt_of_le hlt (heap_size_le_enter _ _ _ _), hfree⟩

/-- What happens after the entry of a scope has happened since before it. -/
theorem Later.enter {params : List VarId}
    (h : Later r (Within r i) base ds (X.enter r.plans i params) Y) :
    Later r (Around r.tree.scopes · i) base ds X Y := by
  have hheap := heap_size_le_enter X.lasting r.plans i params
  refine ⟨h.homes, fun c a v hc => ?_, h.cells, hheap.trans h.heap, h.kept⟩
  refine (h.new c a v hc).imp_right fun ⟨hle, hnew⟩ => ⟨hle, ?_⟩
  rcases hnew with hnew | ⟨hv, p, o, hp, ho, rfl | hoi, ha⟩
  · exact .inl (hheap.trans hnew)
  · obtain ⟨hself, -⟩ := find?_enter_self hr ho X.lasting params
    exact .inl (Nat.le_of_eq (Option.some.inj (hself.symm.trans ha)))
  · have hsame := find?_enter_of_around hr ho hoi X.lasting params
    exact .inr ⟨hv, p, o, hp, ho, hoi, hsame.symm.trans ha⟩

/-- A point is one still once a scope below is entered. -/
theorem Point.enter (hreach : r.tree.Reach scope vis) (hi : Around r.tree.scopes scope i)
    (h : Point r vis base X) : Point r vis base (X.enter r.plans i []) where
  world := h.world.enter hr i []
  captured v p hv hp := by
    have hpre := hr.bound.preorder
    obtain ⟨p', c, a, hp', hc, ha, hμ⟩ := h.captured v p hv hp
    obtain ⟨x, hx, hxs, -⟩ := hreach v hv
    obtain ⟨o, ho, hox, -⟩ := hr.plans.clear_of_varPlan hp' hx
    have hoi : Around r.tree.scopes o i := (hox.trans hpre hxs).trans_around hpre hi
    exact ⟨p', c, a, hp', hc, (find?_enter_of_around hr ho hoi X.lasting []).trans ha, hμ⟩
  plain v hv hp := by
    obtain ⟨c, x, y, hc, hbase, hμ, hx, hy, hxy⟩ := h.plain v hv hp
    refine ⟨c, x, y, hc, hbase, hμ, hx, ?_, hxy⟩
    unfold Twin.enter
    dsimp only
    rw [Lasting.locals_enter]
    exact hy
  apart := h.apart
  base := h.base

/-- In a scope that is no block everything is unborn before its entry, as far as environments around
it go. -/
theorem unborn_around {x : Scope} (hx : r.tree.scopes[i]? = some x) (hkind : x.kind ≠ .block)
    (hvs : ∀ v ∈ vs, r.tree.BelowEq i v) : Unborn r (Around r.tree.scopes · i) X vs :=
  fun v hv _ _ hp ho hoi =>
    absurd hoi (hr.plans.not_around_of_varPlan hx hkind (hvs v hv) hp ho)

/-- A block that opens a scope is run alike if what stands in it is. -/
theorem agree_block (hreach : r.tree.Reach scope vis)
    (hpar : parentIn? r.tree.scopes i = some scope) (hds : ∀ v ∈ ds, r.tree.BelowEq i v)
    (hvis : ∀ v, vis v → vis' v) {body : Direct.Eval Direct.Val} {body' : Lasting.Eval Lasting.Val}
    (h : Point r vis base X) (hunborn : Unborn r (Around r.tree.scopes · i) X ds)
    (hbody : ∀ Y, Point r vis base Y → Unborn r (Within r i) Y ds →
      AgreeAt r i vis' base ds Y (Same r.tree r.plans) (body Y.direct) (body' Y.lasting)) :
    AgreeAt r scope vis base ds X (Same r.tree r.plans) (Direct.inBlock body X.direct)
      (Lasting.inBlock r.plans (some i) [] body' X.lasting) := by
  have hp := hr.bound.preorder
  have hi := around_parent hp hpar
  have hagree := hbody _ (h.enter hr hreach hi) (hunborn.enter hr h.world [])
  -- what is visible around the block is not declared in it
  have hnot (v : VarId) (hv : vis v) : v ∉ ds := fun hmem => by
    obtain ⟨x, hx, hix⟩ := hds v hmem
    obtain ⟨y, hy, hys, -⟩ := hreach v hv
    cases hx.symm.trans hy
    exact Around.irrefl hp ((hi.trans_eq hp hix).trans_eq hp hys)
  -- What changes inside the block is an environment from inside, or one from around it that the
  -- block may fill as well.
  have hlater {Z : Twin} (hZ : Later r (Within r i) base ds (X.enter r.plans i []) Z) :
      Later r (Within r scope) base ds X Z :=
    (hZ.enter hr).imp fun v hv a ⟨p, o, hp', ho, hoi, ha⟩ =>
      ⟨hv, p, o, hp', ho, aroundEq_parent hp hpar hoi, ha⟩
  refine hagree.atEnd (fun d => { d with sight := X.direct.sight })
    (fun s => { s with sight := X.lasting.sight }) (fun x d y s hgives => ?_) fun x d y s hleaves => ?_
  · obtain ⟨μ, hreached, hsame⟩ := hgives
    have hlater := hlater hreached.later
    refine ⟨μ, ⟨⟨hreached.point.world.congr rfl rfl rfl rfl hreached.point.world.depth,
      fun v p hv hp => (h.captured v p hv hp).mono hlater.homes, fun v hv hp => ?_, h.apart, ?_⟩,
      hlater.congr rfl rfl, fun _ _ => rfl, rfl⟩, hsame⟩
    · -- A cell that was visible is the same one behind the block, since no declaration in it took
      -- the name.
      obtain ⟨c, z, u, hc, hrest⟩ := hreached.point.plain v (hvis v hv) hp
      exact ⟨c, z, u, (hreached.direct v (hnot v hv)).symm.trans hc, hrest⟩
    · exact h.base.trans hlater.cells
  · obtain ⟨μ, hworld, hleft, hsame⟩ := hleaves
    exact ⟨μ, hworld.congr rfl rfl rfl rfl hworld.depth, (hlater hleft).congr rfl rfl, hsame⟩

end

end Run.Cells

end ClosureEnv
