import ClosureEnv.Proofs.Local.Numbers
import ClosureEnv.Proofs.Plan.Places

/-!
# Parts of two trees that stand for each other

When scopes, variables and closures of one tree stand for those of another, with all that is inside
of the scopes, the trees tell the same of them: what closures need, where variables are held, which
environments are linked and which are on the heap. Each fact is carried from the one tree to the
other, and the trees may change places.
-/

namespace ClosureEnv

open Relation (ReflTransGen)

/-- Which parts of two trees stand for each other. -/
structure Pairing where
  scope : ScopeId → ScopeId → Prop
  var : VarId → VarId → Prop
  closure : ClosureId → ClosureId → Prop

namespace Pairing

/-- The same with the trees in the other order. -/
def flip (m : Pairing) : Pairing :=
  ⟨fun i j => m.scope j i, fun v w => m.var w v, fun c d => m.closure d c⟩

/-- What the parts of one tree are, their counterparts are. -/
structure Carries (m : Pairing) (t t' : ScopeTree) : Prop where
  parents : SameParents m.scope t.scopes t'.scopes
  vars_inOrder : InOrder m.var
  scope : ∀ i j x, m.scope i j → t.scopes[i]? = some x →
    ∃ y, t'.scopes[j]? = some y ∧ y.key = x.key ∧ y.kind = x.kind
  var : ∀ v w x, m.var v w → t.vars[v]? = some x →
    ∃ y, t'.vars[w]? = some y ∧ y.name = x.name ∧ y.ty = x.ty ∧ m.scope x.scope y.scope
  closure : ∀ c d k, m.closure c d → t.closures[c]? = some k →
    ∃ l, t'.closures[d]? = some l ∧ m.scope k.scope l.scope ∧
      ∀ v ∈ k.freeVars, ∃ w ∈ l.freeVars, m.var v w
  /-- What is inside of a scope has a counterpart if the scope has. -/
  inside : ∀ i o j, m.scope i j → Around t.scopes i o → ∃ o', m.scope o o'
  exists_var : ∀ (v : Nat) x j, t.vars[v]? = some x → m.scope x.scope j → ∃ w, m.var v w
  exists_closure : ∀ (c : Nat) k j, t.closures[c]? = some k → m.scope k.scope j → ∃ d, m.closure c d

/-- Counterparts in trees whose bodies are well-scoped are alike in both directions. -/
structure Mirrors (m : Pairing) (t t' : ScopeTree) (holds holds' : VarId → ClosureId → Prop) :
    Prop where
  bound : t.WellBound holds
  bound' : t'.WellBound holds'
  there : m.Carries t t'
  back : m.flip.Carries t' t

/-- They also escape alike. -/
structure Matches (m : Pairing) (t t' : ScopeTree) (holds holds' : VarId → ClosureId → Prop) :
    Prop extends m.Mirrors t t' holds holds' where
  escapes : ∀ c d, m.closure c d → (t.Escaping c ↔ t'.Escaping d)

section

variable {m : Pairing} {t t' : ScopeTree} {holds holds' : VarId → ClosureId → Prop}
  {merge : MergePolicy} {c d : ClosureId} {v w : VarId} {s s' o o' : ScopeId}

namespace Mirrors

variable (h : m.Mirrors t t' holds holds')

include h

/-- The trees may change places. -/
theorem flip : m.flip.Mirrors t' t holds' holds :=
  ⟨h.bound', h.bound, h.back, h.there⟩

/-! ## Scopes -/

/-- What is inside of a scope stands for something inside of its counterpart. -/
theorem exists_inside (hs : m.scope s s') (ho : AroundEq t.scopes s o) :
    ∃ o', m.scope o o' ∧ AroundEq t'.scopes s' o' := by
  rcases ho with rfl | ho
  · exact ⟨s', hs, .inl rfl⟩
  · obtain ⟨o', hoo⟩ := h.there.inside s o s' hs ho
    have hparents := h.there.parents.around_iff h.bound.preorder h.bound'.preorder hoo hs
    exact ⟨o', hoo, .inr (hparents.mp ho)⟩

/-- Being around is carried over. -/
theorem around (hs : m.scope s s') (ho : m.scope o o') (ha : Around t.scopes o s) :
    Around t'.scopes o' s' :=
  (h.there.parents.around_iff h.bound.preorder h.bound'.preorder hs ho).mp ha

/-- So is being at or around. -/
theorem aroundEq (hs : m.scope s s') (ho : m.scope o o') (ha : AroundEq t.scopes o s) :
    AroundEq t'.scopes o' s' :=
  (h.there.parents.aroundEq_iff h.bound.preorder h.bound'.preorder hs ho).mp ha

/-- A scope has one counterpart. -/
theorem scope_unique (ho : m.scope o o') {o'' : ScopeId} (ho' : m.scope o o'') : o'' = o' :=
  (h.there.parents.order.eq_iff ho' ho).mp rfl

/-- A block is a block. -/
theorem block (hs : m.scope s s') (hb : ∃ x, t.scopes[s]? = some x ∧ x.kind = .block) :
    ∃ x, t'.scopes[s']? = some x ∧ x.kind = .block := by
  obtain ⟨x, hx, hk⟩ := hb
  obtain ⟨y, hy, -, hyk⟩ := h.there.scope s s' x hs hx
  exact ⟨y, hy, hyk.trans hk⟩

/-! ## What closures need -/

/-- A closure needs the counterparts of what it needs. -/
theorem needs (hc : m.closure c d) (hv : m.var v w) (hn : t.Needs c v) : t'.Needs d w := by
  obtain ⟨outer, inner, x, hout, hin, hx, hfree, hle, hx'⟩ := h.bound.needs_iff.mp hn
  obtain ⟨outer', hout', hscope, -⟩ := h.there.closure c d outer hc hout
  obtain ⟨s', hs', hle'⟩ := h.exists_inside hscope hle
  obtain ⟨e, he⟩ := Array.mem_iff_getElem?.mp hin
  obtain ⟨e', hee⟩ := h.there.exists_closure e inner s' he hs'
  obtain ⟨inner', hin', hinner, hvars⟩ := h.there.closure e e' inner hee he
  obtain ⟨w', hw', hvw⟩ := hvars v hfree
  obtain rfl : w' = w := (h.there.vars_inOrder.eq_iff hvw hv).mp rfl
  obtain ⟨y, hy, -, -, hxy⟩ := h.there.var v w' x hv hx
  exact h.bound'.needs_iff.mpr ⟨outer', inner', y, hout', Array.mem_of_getElem? hin', hy, hw',
    h.scope_unique hs' hinner ▸ hle', h.around hscope hxy hx'⟩

/-- A closure that needs a variable has a counterpart if the variable has. -/
theorem exists_closure_of_needs (hv : m.var v w) (hn : t.Needs c v) : ∃ d, m.closure c d := by
  obtain ⟨k, x, hk, hx⟩ := h.bound.exists_of_needs hn
  obtain ⟨y, -, -, -, hxy⟩ := h.there.var v w x hv hx
  obtain ⟨s', hs'⟩ := h.there.inside x.scope k.scope y.scope hxy (h.bound.around_of_needs hn hk hx)
  exact h.there.exists_closure c k s' hk hs'

/-- A variable that a closure needs has a counterpart if the closure has. -/
theorem exists_var_of_needs (hc : m.closure c d) (hn : t.Needs c v) : ∃ w, m.var v w := by
  obtain ⟨k, x, hk, hx⟩ := h.bound.exists_of_needs hn
  obtain ⟨l, -, hkl, -⟩ := h.there.closure c d k hc hk
  obtain ⟨s', hs', -⟩ := h.there.parents.exists_around h.bound.preorder h.bound'.preorder hkl
    (h.bound.around_of_needs hn hk hx)
  exact h.there.exists_var v x s' hx hs'

/-- A captured variable is captured in both trees. -/
theorem captured (hv : m.var v w) (hcap : t.Captured v) : t'.Captured w := by
  obtain ⟨c, hn⟩ := hcap
  obtain ⟨d, hc⟩ := h.exists_closure_of_needs hv hn
  exact ⟨d, h.needs hc hv hn⟩

/-- A closure uses the counterpart of a scope that it uses. -/
theorem usesScope (hc : m.closure c d) (hs : m.scope s s') (hu : t.UsesScope c s) :
    t'.UsesScope d s' := by
  obtain ⟨v, x, hn, hx, rfl⟩ := hu
  obtain ⟨w, hv⟩ := h.exists_var_of_needs hc hn
  obtain ⟨y, hy, -, -, hxy⟩ := h.there.var v w x hv hx
  exact ⟨w, y, h.needs hc hv hn, hy, h.scope_unique hs hxy⟩

/-- A closure that uses a scope has a counterpart if the scope has. -/
theorem exists_closure_of_uses (hs : m.scope s s') (hu : t.UsesScope c s) : ∃ d, m.closure c d := by
  obtain ⟨v, x, hn, hx, rfl⟩ := hu
  obtain ⟨w, hv⟩ := h.there.exists_var v x s' hx hs
  exact h.exists_closure_of_needs hv hn

/-- A scope that is used is used in both trees. -/
theorem exists_uses (hs : m.scope s s') (hu : ∃ c, t.UsesScope c s) : ∃ d, t'.UsesScope d s' := by
  obtain ⟨c, hu⟩ := hu
  obtain ⟨d, hc⟩ := h.exists_closure_of_uses hs hu
  exact ⟨d, h.usesScope hc hs hu⟩

/-! ## Closures that need nothing -/

/-- A closure that needs nothing needs nothing in either tree. -/
theorem not_needs (hc : m.closure c d) (hn : ∀ v, ¬ t.Needs c v) : ∀ w, ¬ t'.Needs d w := by
  intro w hw
  obtain ⟨v, hv⟩ := h.flip.exists_var_of_needs hc hw
  exact hn v (h.flip.needs hc hv hw)

/-- A closure uses a type parameter in both trees. -/
theorem usesTypeParam (hc : m.closure c d) {k l : Closure} (hk : t.closures[c]? = some k)
    (hl : t'.closures[d]? = some l) (hu : PlanTable.usesTypeParam t k = true) :
    PlanTable.usesTypeParam t' l = true := by
  obtain ⟨l', hl', hkl, -⟩ := h.there.closure c d k hc hk
  cases hl.symm.trans hl'
  obtain ⟨v, hlt, hv⟩ := Array.any_eq_true.mp hu
  have hx := Array.getElem?_eq_getElem hlt
  rw [Bool.and_eq_true, encloses_iff] at hv
  obtain ⟨s', hs', hle⟩ := h.exists_inside hkl hv.1
  obtain ⟨w, hvw⟩ := h.there.exists_var v _ s' hx hs'
  obtain ⟨y, hy, -, hty, hxy⟩ := h.there.var v w _ hvw hx
  obtain ⟨hlt', rfl⟩ := Array.getElem?_eq_some_iff.mp hy
  refine Array.any_eq_true.mpr ⟨w, hlt', ?_⟩
  rw [Bool.and_eq_true, encloses_iff, hty]
  exact ⟨h.scope_unique hs' hxy ▸ hle, hv.2⟩

end Mirrors

namespace Matches

variable (h : m.Matches t t' holds holds')

include h

/-- The trees may change places. -/
theorem flip : m.flip.Matches t' t holds' holds :=
  ⟨h.toMirrors.flip, fun c d hcd => (h.escapes d c hcd).symm⟩

/-- A scope that is outlived is outlived in both trees. -/
theorem outlives (hs : m.scope s s') (ho : t.Outlives s) : t'.Outlives s' := by
  obtain ⟨c, he, hu⟩ := ho
  obtain ⟨d, hc⟩ := h.exists_closure_of_uses hs hu
  exact ⟨d, (h.escapes c d hc).mp he, h.usesScope hc hs hu⟩

/-! ## Where variables are held -/

/-- A scope goes into the counterpart of the scope that it goes into. -/
theorem mergesInto (hs : m.scope s s') (ho : m.scope o o') (hm : t.MergesInto s o) :
    t'.MergesInto s' o' := by
  have hkept {i i' : ScopeId} (hi : m.scope i i') : t.Outlives i ↔ t'.Outlives i' :=
    ⟨h.outlives hi, h.flip.outlives hi⟩
  refine ⟨h.block hs hm.block, h.exists_uses hs hm.inner,
    h.exists_uses ho hm.outer, h.around hs ho hm.around, fun y' hoy hys => ?_,
    (hkept hs).symm.trans (hm.kept.trans (hkept ho)), fun d hu => ?_⟩
  · obtain ⟨y, hy, hys'⟩ :=
      h.flip.there.parents.exists_around h.bound'.preorder h.bound.preorder hs hys
    obtain ⟨hblock, hno⟩ := hm.between y (h.flip.around hy ho hoy) hys'
    refine ⟨h.block hy hblock, fun d hu => ?_⟩
    obtain ⟨c, hu⟩ := h.flip.exists_uses hy ⟨d, hu⟩
    exact hno c hu
  · obtain ⟨c, hc⟩ := h.flip.exists_closure_of_uses hs hu
    exact h.usesScope hc ho (hm.users c (h.flip.usesScope hc hs hu))

/-- So it does along several scopes. -/
theorem exists_merged (hs : m.scope s s') (hm : ReflTransGen t.MergesInto s o) :
    ∃ o', m.scope o o' ∧ ReflTransGen t'.MergesInto s' o' := by
  induction hm with
  | refl => exact ⟨s', hs, .refl⟩
  | tail _ hm ih =>
    obtain ⟨y', hy, hsy⟩ := ih
    obtain ⟨o', ho, -⟩ :=
      h.there.parents.exists_around h.bound.preorder h.bound'.preorder hy hm.around
    exact ⟨o', ho, hsy.tail (h.mergesInto hy ho hm)⟩

/-- The home of a scope has a counterpart, which is that of its counterpart. -/
theorem exists_home (hs : m.scope s s') (hh : t.Home merge s o) :
    ∃ o', m.scope o o' ∧ t'.Home merge s' o' := by
  cases merge with
  | never =>
    cases hh
    exact ⟨s', hs, rfl⟩
  | contained =>
    obtain ⟨hm, hend⟩ := hh
    obtain ⟨o', ho, hm'⟩ := h.exists_merged hs hm
    refine ⟨o', ho, hm', fun z' hz => ?_⟩
    obtain ⟨z, hz', -⟩ :=
      h.flip.there.parents.exists_around h.bound'.preorder h.bound.preorder ho hz.around
    exact hend z (h.flip.mergesInto ho hz' hz)

omit h in
/-- The home of a scope lies at or around it. -/
theorem aroundEq_of_home (ht : t.WellBound holds) (hh : t.Home merge s o) :
    AroundEq t.scopes o s := by
  cases merge with
  | never => exact .inl hh.symm
  | contained =>
    obtain ⟨hm, -⟩ := hh
    induction hm with
    | refl => exact .inl rfl
    | tail _ hm ih => exact .inr (hm.around.trans_eq ht.preorder ih)

/-- The scope that holds a variable has a counterpart, which holds that of the variable. -/
theorem exists_heldAt (hv : m.var v w) (hh : t.HeldAt merge v o) :
    ∃ o', m.scope o o' ∧ t'.HeldAt merge w o' := by
  obtain ⟨hcap, x, hx, hhome⟩ := hh
  obtain ⟨y, hy, -, -, hxy⟩ := h.there.var v w x hv hx
  obtain ⟨o', ho, hhome'⟩ := h.exists_home hxy hhome
  exact ⟨o', ho, h.captured hv hcap, y, hy, hhome'⟩

/-- A variable that a scope holds has a counterpart if the scope has, which holds it. -/
theorem exists_var_of_heldAt (ho : m.scope o o') (hh : t.HeldAt merge v o) :
    ∃ w, m.var v w ∧ t'.HeldAt merge w o' := by
  obtain ⟨-, x, hx, hhome⟩ := id hh
  obtain ⟨s', hs', -⟩ := h.exists_inside ho (aroundEq_of_home h.bound hhome)
  obtain ⟨w, hv⟩ := h.there.exists_var v x s' hx hs'
  obtain ⟨o'', ho', hh'⟩ := h.exists_heldAt hv hh
  exact ⟨w, hv, h.scope_unique ho ho' ▸ hh'⟩

/-! ## Environments -/

/-- There is an environment for a scope in both trees. -/
theorem hasEnv (hs : m.scope s s') (he : t.HasEnv merge s) : t'.HasEnv merge s' := by
  obtain ⟨v, hv⟩ := he
  obtain ⟨w, -, hw⟩ := h.exists_var_of_heldAt hs hv
  exact ⟨w, hw⟩

/-- The next scope around with an environment is the same. -/
theorem nextEnv (hs : m.scope s s') (ho : m.scope o o') (hn : t.NextEnv merge s o) :
    t'.NextEnv merge s' o' := by
  refine ⟨h.hasEnv hs hn.inner, h.hasEnv ho hn.outer, h.around hs ho hn.around,
    fun z' he hz' => ?_⟩
  obtain ⟨z, hz, hzs⟩ :=
    h.flip.there.parents.exists_around h.bound'.preorder h.bound.preorder hs hz'
  exact h.aroundEq ho hz (hn.nearest z (h.flip.hasEnv hz he) hzs)

/-- A closure that needs what is held inside of one scope and outside of another does so in both
trees. -/
theorem spans (hs : m.scope s s') (ho : m.scope o o') (hsp : t.Spans merge s o) :
    t'.Spans merge s' o' := by
  obtain ⟨c, u, z, v, y, hu, huz, hsz, hv, hvy, hyo⟩ := hsp
  obtain ⟨z', hz, hsz'⟩ := h.exists_inside hs hsz
  obtain ⟨u', huu, hu'⟩ := h.exists_var_of_heldAt hz huz
  obtain ⟨d, hc⟩ := h.exists_closure_of_needs huu hu
  obtain ⟨v', hvv⟩ := h.exists_var_of_needs hc hv
  obtain ⟨y', hy, hv'⟩ := h.exists_heldAt hvv hvy
  exact ⟨d, u', z', v', y', h.needs hc huu hu, hu', hsz', h.needs hc hvv hv, hv',
    h.aroundEq ho hy hyo⟩

/-- Links are the same. -/
theorem linksTo (hs : m.scope s s') (ho : m.scope o o') (hl : t.LinksTo merge s o) :
    t'.LinksTo merge s' o' :=
  ⟨h.nextEnv hs ho hl.1, h.spans hs ho hl.2⟩

/-- What a scope is linked to has a counterpart if the scope has. -/
theorem exists_of_linksTo (hs : m.scope s s') (hl : t.LinksTo merge s o) :
    ∃ o', m.scope o o' ∧ t'.LinksTo merge s' o' := by
  obtain ⟨o', ho, -⟩ :=
    h.there.parents.exists_around h.bound.preorder h.bound'.preorder hs hl.1.around
  exact ⟨o', ho, h.linksTo hs ho hl⟩

/-- A closure needs the counterparts of the environments that it needs. -/
theorem exists_needsEnv (hc : m.closure c d) (hn : t.NeedsEnv merge c o) :
    ∃ o', m.scope o o' ∧ t'.NeedsEnv merge d o' := by
  rcases hn with ⟨v, hn, hv⟩ | ⟨s, k, hl, hk, hks, hok⟩
  · obtain ⟨w, hvw⟩ := h.exists_var_of_needs hc hn
    obtain ⟨o', ho, hw⟩ := h.exists_heldAt hvw hv
    exact ⟨o', ho, .inl ⟨w, h.needs hc hvw hn, hw⟩⟩
  · obtain ⟨l, hl', hkl, -⟩ := h.there.closure c d k hc hk
    obtain ⟨s', hs, hks'⟩ := h.exists_inside hkl hks
    obtain ⟨o', ho, hok'⟩ :=
      h.there.parents.exists_around h.bound.preorder h.bound'.preorder hkl hok
    exact ⟨o', ho, .inr ⟨s', l, h.linksTo hs ho hl, hl', hks', hok'⟩⟩

/-- A closure that needs the environment for a scope has a counterpart if the scope has. -/
theorem exists_closure_of_needsEnv (ho : m.scope o o') (hn : t.NeedsEnv merge c o) :
    ∃ d, m.closure c d := by
  rcases hn with ⟨v, hn, hv⟩ | ⟨s, k, -, hk, -, hok⟩
  · obtain ⟨w, hvw, -⟩ := h.exists_var_of_heldAt ho hv
    exact h.exists_closure_of_needs hvw hn
  · obtain ⟨s', hs⟩ := h.there.inside o k.scope o' ho hok
    exact h.there.exists_closure c k s' hk hs

/-- A closure gets the counterpart of the environment that it gets. -/
theorem bindsTo (hc : m.closure c d) (ho : m.scope o o') (hb : t.BindsTo merge c o) :
    t'.BindsTo merge d o' := by
  obtain ⟨hneed, hin⟩ := hb
  obtain ⟨o'', ho', hneed'⟩ := h.exists_needsEnv hc hneed
  refine ⟨h.scope_unique ho ho' ▸ hneed', fun z' hz' => ?_⟩
  obtain ⟨z, hz, hneedz⟩ := h.flip.exists_needsEnv hc hz'
  exact h.aroundEq ho hz (hin z hneedz)

/-- The same environments are on the heap. -/
theorem onHeap (ho : m.scope o o') (hheap : t.OnHeap merge o) : t'.OnHeap merge o' := by
  induction hheap generalizing o' with
  | outlives he hout => exact .outlives (h.hasEnv ho he) (h.outlives ho hout)
  | escaping he hb =>
    obtain ⟨d, hc⟩ := h.exists_closure_of_needsEnv ho hb.1
    exact .escaping ((h.escapes _ d hc).mp he) (h.bindsTo hc ho hb)
  | @link s o _ hl ih =>
    obtain ⟨s', hs⟩ := h.there.inside o s o' ho hl.1.around
    exact .link (ih hs) (h.linksTo hs ho hl)

end Matches

end

end Pairing

end ClosureEnv
