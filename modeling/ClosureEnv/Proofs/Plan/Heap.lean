import ClosureEnv.Proofs.Plan.Places
import ClosureEnv.Proofs.Plan.Reach
import Mathlib.Order.Bounds.Basic

/-!
# On the heap is what has to be there, and nothing else

Which environments have to outlive the frames that enter them is given by rules that speak of the
slots of the plans, of the environments that escaping closures are made with, and of the parents
(`PlanTable.HeapRules`). Planning decides it in three places: for single scopes before they are
merged, along the links of escaping closures, and for whatever is linked to from there. What comes
of it is the least set that the rules allow (`planEnvironments_leastHeap`).
-/

namespace ClosureEnv

namespace PlanTable

/-- The rules for which environments are on the heap. -/
structure HeapRules (t : ScopeTree) (a : Captures) (ps : PlanTable) (heap : PlanId → Prop) :
    Prop where
  /-- One that has a slot for something that an escaping closure needs. -/
  slot : ∀ (p : PlanId) x c v, ps.plans[p]? = some x → v ∈ x.slots → t.Escaping c →
    v ∈ a.needs c → heap p
  /-- One that an escaping closure is made with. -/
  direct : ∀ c p, t.Escaping c → ps.bindings.find? c = some (.direct p) → heap p
  /-- The parent of one that is there. -/
  parent : ∀ p q, heap p → ps.parent? p = some q → heap q

/-- The environment of a scope is on the heap. -/
def ScopeOnHeap (ps : PlanTable) (p : PlanId) : Prop :=
  ∃ x, ps.plans[p]? = some x ∧ x.origin ≠ none ∧ x.repr = .reference

/-- How environments are kept, given what closures capture. -/
structure KeptExactly (t : ScopeTree) (a : Captures) (ps : PlanTable) : Prop where
  /-- Of the environments of scopes those are on the heap that have to be there. -/
  least : IsLeast {heap | ps.HeapRules t a heap} ps.ScopeOnHeap
  /-- An environment that is kept as a value has no variable that escapes, and none on the heap
  refers to it. -/
  value : ∀ (p : PlanId) x, ps.plans[p]? = some x → x.repr = .value →
    (∀ v ∈ x.slots, a.escapes v = false) ∧
      ∀ (q : PlanId) y, ps.plans[q]? = some y → y.repr = .reference → y.parent ≠ some p
  /-- The only instance of an environment is on the heap and has nothing in it. -/
  singleton : ∀ (p : PlanId) x, ps.plans[p]? = some x → x.isSingleton = true →
    x.repr = .reference ∧ x.slots = [] ∧ x.parent = none

variable {t : ScopeTree} {holds : VarId → ClosureId → Prop} {a : Captures} {merge : MergePolicy}
  {ps : PlanTable}

/-- The environment of a scope is on the heap if it is, and comes from the scope. -/
theorem scopeOnHeap_iff {p : PlanId} : ps.ScopeOnHeap p ↔ ∃ s, ps.From p s ∧ ps.OnHeap p := by
  constructor
  · rintro ⟨x, hx, ho, hr⟩
    obtain ⟨s, hs⟩ := Option.ne_none_iff_exists'.mp ho
    exact ⟨s, ⟨x, hx, hs⟩, x, hx, hr⟩
  · rintro ⟨s, ⟨x, hx, hs⟩, y, hy, hr⟩
    cases hx.symm.trans hy
    exact ⟨x, hx, Option.ne_none_iff_exists'.mpr ⟨s, hs⟩, hr⟩

/-- The environments of scopes that are on the heap satisfy the rules. -/
theorem Told.heapRules (hps : ps.Sound t) (htold : ps.Told t merge)
    (hneeds : ∀ c v, v ∈ a.needs c ↔ t.Needs c v) : ps.HeapRules t a ps.ScopeOnHeap where
  slot p x c v hx hv hesc hn := by
    obtain ⟨-, -, -, s, -, hs, -⟩ := hps.linking.placed.slot p x v hx hv
    have hheld := (htold.slot p x s v hx hs).mp hv
    have hp : ps.From p s := ⟨x, hx, hs⟩
    refine scopeOnHeap_iff.mpr ⟨s, hp, (htold.heap p s hp).mpr ?_⟩
    exact .outlives ⟨v, hheld⟩ (hheld.outlives hesc ((hneeds c v).mp hn))
  direct c p hesc hb := by
    obtain ⟨-, s, hs, -⟩ := hps.isInnermost_of_direct hb
    exact scopeOnHeap_iff.mpr ⟨s, hs, hps.heap_escaping c p hesc hb⟩
  parent p q hp hq := by
    obtain ⟨-, -, hheap⟩ := scopeOnHeap_iff.mp hp
    obtain ⟨-, o, -, ho, -⟩ := hps.linking.parent p q hq
    exact scopeOnHeap_iff.mpr ⟨o, ho, hps.heap_parent p q hheap hq⟩

/-- No environment of a scope is on the heap that does not have to be there. -/
theorem Told.heap_of_rules (htold : ps.Told t merge)
    (hneeds : ∀ c v, v ∈ a.needs c ↔ t.Needs c v)
    (hdirect : ∀ c p s, ps.From p s → t.BindsTo merge c s → ps.bindings.find? c = some (.direct p))
    {heap : PlanId → Prop} (hr : ps.HeapRules t a heap) {p : PlanId} (hp : ps.ScopeOnHeap p) :
    heap p := by
  obtain ⟨s, hs, hheap⟩ := scopeOnHeap_iff.mp hp
  have htree := (htold.heap p s hs).mp hheap
  clear hp hheap
  induction htree generalizing p with
  | @outlives s henv hout =>
    obtain ⟨c, hesc, v, y, hn, hy, hys⟩ := hout
    obtain ⟨w, hw⟩ := henv
    obtain ⟨x, hx, hxs⟩ := hs
    -- the variable is of the scope itself, so the environment of the scope has it
    have hv : v ∈ x.slots := (htold.slot p x s v hx hxs).mpr ⟨⟨c, hn⟩, y, hy, hys ▸ hw.home⟩
    exact hr.slot p x c v hx hv hesc ((hneeds c v).mpr hn)
  | escaping hesc hb => exact hr.direct _ p hesc (hdirect _ p _ hs hb)
  | @link s o _ hl ih =>
    obtain ⟨q, hq⟩ := (htold.env s).mp hl.1.inner
    exact hr.parent q p (ih hq) ((htold.link q p s o hq hs).mpr hl)

/-- Plans that running can rely on, and that are those that the tree tells, are kept exactly. -/
theorem Told.keptExactly (hps : ps.Sound t) (htold : ps.Told t merge)
    (hneeds : ∀ c v, v ∈ a.needs c ↔ t.Needs c v)
    (hescapes : ∀ v, a.escapes v = true ↔ ∃ c, t.Escaping c ∧ t.Needs c v)
    (hdirect : ∀ c p s, ps.From p s → t.BindsTo merge c s → ps.bindings.find? c = some (.direct p)) :
    ps.KeptExactly t a where
  least := ⟨htold.heapRules hps hneeds, fun _ hr _ hp => htold.heap_of_rules hneeds hdirect hr hp⟩
  value p x hx hvalue := by
    have hno : ¬ ps.OnHeap p := by
      rintro ⟨y, hy, hr⟩
      cases hx.symm.trans hy
      rw [hvalue] at hr
      cases hr
    refine ⟨fun v hv => Bool.eq_false_iff.mpr fun he => hno ?_, fun q y hy hr hq => hno ?_⟩
    · obtain ⟨c, hesc, hn⟩ := (hescapes v).mp he
      have hheap := (htold.heapRules hps hneeds).slot p x c v hx hv hesc ((hneeds c v).mpr hn)
      obtain ⟨-, -, hheap⟩ := scopeOnHeap_iff.mp hheap
      exact hheap
    · exact hps.heap_parent q p ⟨y, hy, hr⟩ (parent?_eq_some.mpr ⟨y, hy, hq⟩)
  singleton p x hx hsingle := by
    cases ho : x.origin with
    | none =>
      have hempty := hps.empty p x hx ho
      exact ⟨hempty.repr, hempty.slots, hempty.parent⟩
    | some s =>
      rw [(hps.linking.placed.origin p x s hx ho).1] at hsingle
      cases hsingle

end PlanTable

namespace Planning

variable {t : ScopeTree} {holds : VarId → ClosureId → Prop} {a : Captures} {merge : MergePolicy}
  {single cs : Candidates} {start linked ps : PlanTable}

/-- A closure is made with the environment that the tree tells. -/
theorem direct_of_bindsTo (hp : Planning t a merge single cs start linked ps)
    (h : t.WellBound holds) (ha : a.Traced t) {c : ClosureId} {p : PlanId} {s : ScopeId}
    (hs : ps.From p s) (hb : t.BindsTo merge c s) : ps.bindings.find? c = some (.direct p) := by
  have hlinked := hp.aligned.toAlike.homed (hp.made.homed hp.sound (hp.candidates_homed h ha))
  obtain ⟨closures, done, hserved, -⟩ := hp.served
  have hs' : linked.From p s :=
    (PlanTable.alike_assignRepresentations t linked).from_iff.mp (hserved.ext.from_iff.mp hs)
  exact hserved.kept c _ ((hp.bound.bindings_iff h hlinked hs').mpr hb)

end Planning

/-- In the plans of a bound module, the environments of scopes that are on the heap are the least
set that has those with a slot for something that an escaping closure needs, those that escaping
closures are made with, and the parents of its members. -/
theorem planEnvironments_leastHeap {unit : String} {m : Syntax.Module} {t : ScopeTree}
    (ht : bindModule m unit = .ok t) (options : LowerOptions) : ∃ a ps,
      Captures.analyze t = .ok a ∧ planEnvironments t a options = .ok ps ∧ ps.KeptExactly t a := by
  obtain ⟨holds, h⟩ := wellBound_of_bindModule ht
  obtain ⟨a, ha, htraced⟩ := Captures.analyze_traced h
  have hsound := htraced.sound h
  obtain ⟨ps, hps, single, cs, start, linked, hp⟩ := exists_planning h hsound options
  refine ⟨a, ps, ha, hps, (hp.told h htraced).keptExactly (hp.plans_sound h) hsound.needs
    (Candidates.escapes_iff h htraced) fun c p s hs hb => hp.direct_of_bindsTo h htraced hs hb⟩

/-- So it is for a source with a closure, whether environments are merged or not. -/
theorem planEnvironments_leastHeap_captureSource : ∃ t a ps,
    bindModule Syntax.captureSource "u" = .ok t ∧ Captures.analyze t = .ok a ∧
      planEnvironments t a ⟨.contained, true⟩ = .ok ps ∧ ps.KeptExactly t a := by
  obtain ⟨t, ht⟩ := exists_captureTree
  obtain ⟨a, ps, ha, hps, hkept⟩ := planEnvironments_leastHeap ht ⟨.contained, true⟩
  exact ⟨t, a, ps, ht, ha, hps, hkept⟩

end ClosureEnv
