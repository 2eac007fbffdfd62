import ClosureEnv.Proofs.Plan.Rounds

/-!
# Closures that need nothing

Closures that need nothing get empty environments, which come after the others and leave them as
they are (`bindStateless_spec`).
-/

namespace ClosureEnv.PlanTable

variable {t : ScopeTree} {holds : VarId → ClosureId → Prop} {captured : VarId → Prop}
  {ps ps' : PlanTable}

/-- An empty plan: the shared one, or that of a function. -/
structure IsEmpty (t : ScopeTree) (x : Plan) : Prop where
  /-- It comes from no scope. -/
  origin : x.origin = none
  /-- It holds nothing. -/
  slots : x.slots = []
  /-- It has no parent. -/
  parent : x.parent = none
  /-- It is kept on the heap. -/
  repr : x.repr = .reference
  /-- It is the shared one, or that of a function. -/
  kind : x.identity = .static ∧ x.isSingleton = true ∨
    ∃ f fn, x.owner = some f ∧ t.fns[f]? = some fn ∧ x.identity = .staticGeneric fn.name ∧
      x.isSingleton = false

/-- The identity of an empty plan is not that of a scope. -/
theorem IsEmpty.identity_ne_scope {x : Plan} (h : IsEmpty t x) (key : String) :
    x.identity ≠ .scope key := by
  rcases h.kind with ⟨hid, -⟩ | ⟨f, fn, -, -, hid, -⟩ <;> simp [hid]

section addEmpty

variable {identity : EnvIdentity} {owner : Option FnId} {isSingleton : Bool} {cs : List ClosureId}

/-- The plans of a table with one more empty plan behind the others. -/
theorem getElem?_addEmpty {p : Nat} {x : Plan} :
    (ps.addEmpty identity owner isSingleton cs).plans[p]? = some x ↔ ps.plans[p]? = some x ∨
      p = ps.plans.size ∧ x = emptyPlan ps.plans.size identity owner isSingleton := by
  unfold PlanTable.addEmpty
  dsimp only
  rw [Array.getElem?_push]
  split
  · next heq =>
    subst heq
    simp [eq_comm]
  · next hne => simp [hne]

/-- The bindings of a table with one more empty plan. -/
theorem find?_addEmpty (c : ClosureId) :
    (ps.addEmpty identity owner isSingleton cs).bindings.find? c =
      if c ∈ cs then some (if isSingleton then .singleton ps.plans.size else .fresh ps.plans.size)
      else ps.bindings.find? c := by
  unfold PlanTable.addEmpty
  dsimp only
  rw [SortedMap.find?_foldl_insert_const]

end addEmpty

/-- A table with empty plans behind those of another. -/
structure Extends (t : ScopeTree) (ps ps' : PlanTable) : Prop where
  /-- Scopes have the same plans. -/
  scopePlan : ps'.scopePlan = ps.scopePlan
  /-- Variables have the same plans. -/
  varPlan : ps'.varPlan = ps.varPlan
  /-- Closures need the same. -/
  needed : ps'.needed = ps.needed
  /-- Plans stay. -/
  old : ∀ (p : Nat) x, ps.plans[p]? = some x → ps'.plans[p]? = some x
  /-- New plans are empty. -/
  new : ∀ (p : Nat) x, ps'.plans[p]? = some x → ps.plans[p]? = some x ∨
    x.id = p ∧ IsEmpty t x

namespace Extends

/-- A table extends itself. -/
theorem refl (ps : PlanTable) : Extends t ps ps :=
  ⟨rfl, rfl, rfl, fun _ _ h => h, fun _ _ h => .inl h⟩

/-- Plans come from the same scopes. -/
theorem from_iff (h : Extends t ps ps') {p : PlanId} {s : ScopeId} :
    ps'.From p s ↔ ps.From p s := by
  constructor
  · rintro ⟨x, hx, ho⟩
    rcases h.new p x hx with hx | ⟨-, hempty⟩
    · exact ⟨x, hx, ho⟩
    · rw [hempty.origin] at ho
      cases ho
  · rintro ⟨x, hx, ho⟩
    exact ⟨x, h.old p x hx, ho⟩

/-- Where all plans came from scopes, those that come from none are empty. -/
theorem isEmpty (h : Extends t ps ps')
    (hall : ∀ (p : Nat) x, ps.plans[p]? = some x → x.origin ≠ none) {p : Nat} {x : Plan}
    (hx : ps'.plans[p]? = some x) (ho : x.origin = none) : IsEmpty t x := by
  rcases h.new p x hx with hx | ⟨-, hempty⟩
  · exact absurd ho (hall p x hx)
  · exact hempty

/-- The same ways are clear. -/
theorem clear_iff (h : Extends t ps ps') {s x : ScopeId} :
    PlanTable.Clear t ps' s x ↔ PlanTable.Clear t ps s x := by
  unfold PlanTable.Clear
  simp only [h.from_iff]

/-- The same plans are nearest. -/
theorem nearest_iff (h : Extends t ps ps') {p q : PlanId} :
    Nearest t ps' p q ↔ Nearest t ps p q := by
  unfold Nearest
  simp only [h.from_iff]

/-- Closures need the same. -/
theorem neededBy (h : Extends t ps ps') (c : ClosureId) : ps'.neededBy c = ps.neededBy c := by
  rw [PlanTable.neededBy, PlanTable.neededBy, h.needed]

/-- Parents stay. -/
theorem parent?_iff (h : Extends t ps ps') {p q : PlanId} :
    ps'.parent? p = some q ↔ ps.parent? p = some q := by
  unfold parent?
  constructor
  · intro hp
    obtain ⟨x, hx, hq⟩ := Option.bind_eq_some_iff.mp hp
    rcases h.new p x hx with hx | ⟨-, hempty⟩
    · rw [hx]
      exact hq
    · rw [hempty.parent] at hq
      cases hq
  · intro hp
    obtain ⟨x, hx, hq⟩ := Option.bind_eq_some_iff.mp hp
    rw [h.old p x hx]
    exact hq

/-- Plans stay well placed. -/
theorem placed (h : Extends t ps ps') (hps : Placed t captured ps) : Placed t captured ps' := by
  constructor
  · intro p x hx
    rcases h.new p x hx with hx | ⟨hid, -⟩
    · exact hps.plan_id p x hx
    · exact hid
  · intro p x s hx ho
    rcases h.new p x hx with hx | ⟨-, hempty⟩
    · exact hps.origin p x s hx ho
    · rw [hempty.origin] at ho
      cases ho
  · exact fun p q s s' hs hs' => hps.order p q s s' (h.from_iff.mp hs) (h.from_iff.mp hs')
  · intro p s hs
    rw [h.scopePlan]
    exact hps.scope_known p s (h.from_iff.mp hs)
  · intro s p hs
    rw [h.scopePlan] at hs
    obtain ⟨o, ho, hc⟩ := hps.scope_plan s p hs
    exact ⟨o, h.from_iff.mpr ho, h.clear_iff.mpr hc⟩
  · intro p x v hx hv
    rcases h.new p x hx with hx | ⟨-, hempty⟩
    · obtain ⟨hc, hvp, y, o, hy, ho, hclear⟩ := hps.slot p x v hx hv
      rw [h.varPlan]
      exact ⟨hc, hvp, y, o, hy, ho, h.clear_iff.mpr hclear⟩
    · rw [hempty.slots] at hv
      cases hv
  · intro v p hv
    rw [h.varPlan] at hv
    obtain ⟨x, hx, hvx⟩ := hps.var_plan v p hv
    exact ⟨x, h.old p x hx, hvx⟩
  · intro v hv
    rw [h.varPlan]
    exact hps.covered v hv
  · intro p x hx
    rcases h.new p x hx with hx | ⟨-, hempty⟩
    · exact hps.slots p x hx
    · rw [hempty.slots]
      exact List.Pairwise.nil
  · exact fun p s hs => hps.own p s (h.from_iff.mp hs)
  · intro p x v y hx hv hy
    rcases h.new p x hx with hx | ⟨-, hempty⟩
    · exact hps.declared p x v y hx hv hy
    · rw [hempty.slots] at hv
      cases hv

/-- Plans stay linked. -/
theorem linking (h : Extends t ps ps') (hl : Linking t captured ps) :
    Linking t captured ps' where
  placed := h.placed hl.placed
  parent := fun p q hp => h.nearest_iff.mpr (hl.parent p q (h.parent?_iff.mp hp))
  needed := fun c p hp => by
    obtain ⟨k, o, hk, ho, ha⟩ := hl.needed c p (h.neededBy c ▸ hp)
    exact ⟨k, o, hk, h.from_iff.mpr ho, ha⟩
  vars := fun c v p hn hv => by
    rw [h.varPlan] at hv
    exact h.neededBy c ▸ hl.vars c v p hn hv
  cause := fun c p hp => (hl.cause c p (h.neededBy c ▸ hp)).mono h.varPlan
    (fun _ _ => h.from_iff.mpr) fun _ _ => h.parent?_iff.mpr
  spanned := fun p q hq =>
    (hl.spanned p q (h.parent?_iff.mp hq)).mono h.varPlan fun _ _ => h.from_iff.mpr

/-- The same plans are innermost. -/
theorem isInnermost_iff (h : Extends t ps ps') {plans : List PlanId} {d : PlanId} :
    IsInnermost t ps' plans d ↔ IsInnermost t ps plans d := by
  unfold IsInnermost
  simp only [h.from_iff]

/-- Plans stay linked in full. -/
theorem closed (h : Extends t ps ps') (hc : Closed t ps) : Closed t ps' where
  chain := fun c d p hlt hd hp => by
    rw [h.neededBy] at hd hp
    refine Relation.ReflTransGen.mono ?_ _ _ (hc.chain c d p hlt (h.isInnermost_iff.mp hd) hp)
    exact fun a b hab => h.parent?_iff.mpr hab
  parents := fun c p q s o hpq hs ho hb => by
    rw [h.neededBy]
    exact hc.parents c p q s o (h.parent?_iff.mp hpq) (h.from_iff.mp hs) (h.from_iff.mp ho) hb
  closures := fun c d k p o hk hp ho hb => by
    rw [h.neededBy] at hp ⊢
    exact hc.closures c d k p o hk hp (h.from_iff.mp ho) hb

/-- One more empty plan behind the others. -/
theorem addEmpty (h : Extends t ps ps') {identity : EnvIdentity} {owner : Option FnId}
    {isSingleton : Bool} (cs : List ClosureId)
    (hempty : IsEmpty t (emptyPlan ps'.plans.size identity owner isSingleton)) :
    Extends t ps (ps'.addEmpty identity owner isSingleton cs) where
  scopePlan := h.scopePlan
  varPlan := h.varPlan
  needed := h.needed
  old := fun p x hx => getElem?_addEmpty.mpr (.inl (h.old p x hx))
  new := fun p x hx => by
    rcases getElem?_addEmpty.mp hx with hx | ⟨rfl, rfl⟩
    · exact h.new p x hx
    · exact .inr ⟨rfl, hempty⟩

end Extends

/-- What binding the closures that need nothing leaves, for the functions in `done`. -/
structure Served (t : ScopeTree) (ps : PlanTable) (closures : List (ClosureId × Option FnId))
    (done : List (Option FnId)) (ps' : PlanTable) : Prop where
  /-- Only empty plans are added. -/
  ext : Extends t ps ps'
  /-- Each is for one of the functions, or the shared one. -/
  owner : ∀ (p : Nat) x, ps'.plans[p]? = some x → x.origin = none →
    x.owner ∈ done ∧ (x.owner = none ↔ x.isSingleton = true)
  /-- There is one for each of those. -/
  made : ∀ owner ∈ done, ∃ (p : Nat) (x : Plan), ps'.plans[p]? = some x ∧ x.origin = none ∧
    x.owner = owner
  /-- There is only one for each. -/
  unique : ∀ (p q : Nat) x y, ps'.plans[p]? = some x → ps'.plans[q]? = some y →
    x.origin = none → y.origin = none → x.owner = y.owner → p = q
  /-- Closures stay bound. -/
  kept : ∀ c b, ps.bindings.find? c = some b → ps'.bindings.find? c = some b
  /-- Closures that are bound now are bound to empty plans. -/
  added : ∀ c b, ps'.bindings.find? c = some b → ps.bindings.find? c = some b ∨
    ps.bindings.find? c = none ∧ ∃ p x, ps'.plans[p]? = some x ∧ x.origin = none ∧
      b = if x.isSingleton then .singleton p else .fresh p
  /-- The closures of the functions are bound. -/
  bound : ∀ c f, (c, f) ∈ closures → f ∈ done → ∃ b, ps'.bindings.find? c = some b

/-- One more function is served. -/
theorem Served.addEmpty {closures : List (ClosureId × Option FnId)} {done : List (Option FnId)}
    (h : Served t ps closures done ps')
    (hunbound : ∀ c f, (c, f) ∈ closures → ps.bindings.find? c = none)
    {identity : EnvIdentity} {owner : Option FnId} {isSingleton : Bool} (hnew : owner ∉ done)
    (hempty : IsEmpty t (emptyPlan ps'.plans.size identity owner isSingleton))
    (hs : owner = none ↔ isSingleton = true) :
    Served t ps closures (done ++ [owner]) (ps'.addEmpty identity owner isSingleton
      ((closures.filter fun c => c.2 == owner).map Prod.fst)) := by
  have hmine (c : ClosureId) :
      c ∈ (closures.filter fun c => c.2 == owner).map Prod.fst ↔ (c, owner) ∈ closures := by
    simp
  generalize (closures.filter fun c => c.2 == owner).map Prod.fst = cs at hmine ⊢
  have hkeep (p : Nat) (x : Plan) (hx : ps'.plans[p]? = some x) :
      (ps'.addEmpty identity owner isSingleton cs).plans[p]? = some x :=
    getElem?_addEmpty.mpr (.inl hx)
  have hself : (ps'.addEmpty identity owner isSingleton cs).plans[ps'.plans.size]? =
      some (emptyPlan ps'.plans.size identity owner isSingleton) :=
    getElem?_addEmpty.mpr (.inr ⟨rfl, rfl⟩)
  constructor
  · exact h.ext.addEmpty _ hempty
  · intro p x hx ho
    rcases getElem?_addEmpty.mp hx with hx | ⟨rfl, rfl⟩
    · exact ⟨List.mem_append_left _ (h.owner p x hx ho).1, (h.owner p x hx ho).2⟩
    · exact ⟨List.mem_append_right _ (List.mem_singleton.mpr rfl), hs⟩
  · intro owner' ho
    rcases List.mem_append.mp ho with ho | ho
    · obtain ⟨p, x, hx, hrest⟩ := h.made owner' ho
      exact ⟨p, x, hkeep p x hx, hrest⟩
    · exact ⟨_, _, hself, rfl, (List.mem_singleton.mp ho).symm⟩
  · intro p q x y hx hy hxo hyo heq
    -- only the new plan is for the new function
    rcases getElem?_addEmpty.mp hx with hx | ⟨rfl, rfl⟩ <;>
      rcases getElem?_addEmpty.mp hy with hy | ⟨rfl, rfl⟩
    · exact h.unique p q x y hx hy hxo hyo heq
    · exact absurd ((show x.owner = owner from heq) ▸ (h.owner p x hx hxo).1) hnew
    · exact absurd ((show y.owner = owner from heq.symm) ▸ (h.owner q y hy hyo).1) hnew
    · rfl
  · intro c b hb
    rw [find?_addEmpty, if_neg, h.kept c b hb]
    intro hc
    rw [hunbound c owner ((hmine c).mp hc)] at hb
    cases hb
  · intro c b hb
    rw [find?_addEmpty] at hb
    split at hb
    · next hc =>
      cases hb
      exact .inr ⟨hunbound c owner ((hmine c).mp hc), _, _, hself, rfl, rfl⟩
    · rcases h.added c b hb with hb | ⟨hno, p, x, hx, ho, hb⟩
      · exact .inl hb
      · exact .inr ⟨hno, p, x, hkeep p x hx, ho, hb⟩
  · intro c f hc hf
    rw [find?_addEmpty]
    split
    · exact ⟨_, rfl⟩
    · next hno =>
      rcases List.mem_append.mp hf with hf | hf
      · exact h.bound c f hc hf
      · obtain rfl := List.mem_singleton.mp hf
        exact absurd ((hmine c).mpr hc) hno

/-- The function whose empty environment a closure gets that needs nothing, if it uses a type
parameter of its function. -/
def genericOwner? (t : ScopeTree) (k : Closure) : Option FnId :=
  if (t.fns[k.owner]?.getD default).isGeneric && usesTypeParam t k then some k.owner else none

/-- It is the function of the closure. -/
theorem genericOwner?_eq_some {k : Closure} {f : FnId} : genericOwner? t k = some f ↔
    f = k.owner ∧ (t.fns[k.owner]?.getD default).isGeneric = true ∧ usesTypeParam t k = true := by
  unfold genericOwner?
  rw [← Bool.and_eq_true]
  split
  · next hyes => simp [hyes, eq_comm]
  · next hno => simp [hno]

/-- It is one of the functions. -/
theorem genericOwner?_lt (h : t.WellBound holds) {c : ClosureId} {k : Closure} {f : FnId}
    (hk : t.closures[c]? = some k) (hown : genericOwner? t k = some f) : f < t.fns.size := by
  obtain ⟨rfl, -⟩ := genericOwner?_eq_some.mp hown
  exact h.closure_owner c k hk

/-- The closures that are not bound yet, each with its function if it needs an empty environment of
that function. -/
theorem stateless_spec (h : t.WellBound holds) (ps : PlanTable) :
    ∃ cs, ps.stateless t = .ok cs ∧ ∀ c f, (c, f) ∈ cs ↔ ∃ k, t.closures[c]? = some k ∧
      ps.bindings.find? c = none ∧ f = genericOwner? t k := by
  have hone (k : Closure) (hk : k ∈ t.closures.toList.filter fun c => !ps.bindings.contains c.id) :
      (do
        let f ← t.function k.owner
        return (k.id, if f.isGeneric && usesTypeParam t k then some k.owner else none) :
          Lower (ClosureId × Option FnId)) = .ok (k.id, genericOwner? t k) := by
    obtain ⟨c, hc⟩ := List.mem_iff_getElem?.mp (List.mem_filter.mp hk).1
    rw [Array.getElem?_toList] at hc
    have hown := Array.getElem?_eq_getElem (h.closure_owner c k hc)
    rw [ScopeTree.function_eq_ok.mpr hown, Lower.ok_bind, genericOwner?, hown]
    rfl
  refine ⟨_, Lower.mapM_ok hone, fun c f => ?_⟩
  simp only [List.mem_map, List.mem_filter, Array.mem_toList_iff, Bool.not_eq_true',
    SortedMap.contains, Option.isSome_eq_false_iff, Option.isNone_iff_eq_none, Prod.mk.injEq]
  constructor
  · rintro ⟨k, ⟨hk, hb⟩, rfl, rfl⟩
    obtain ⟨c, hc⟩ := Array.mem_iff_getElem?.mp hk
    exact ⟨k, (h.closure_id c k hc).symm ▸ hc, hb, rfl⟩
  · rintro ⟨k, hk, hb, rfl⟩
    have hid := h.closure_id c k hk
    exact ⟨k, ⟨Array.mem_of_getElem? hk, hid.symm ▸ hb⟩, hid, rfl⟩

/-- Functions are served one after the other. -/
theorem foldlM_served {closures : List (ClosureId × Option FnId)}
    (hunbound : ∀ c f, (c, f) ∈ closures → ps.bindings.find? c = none)
    (hstart : Served t ps closures [] ps) {owners : List FnId} (hnodup : owners.Nodup)
    (howners : ∀ f ∈ owners, f < t.fns.size) :
    ∃ mid, owners.foldlM (fun ps f => do
        let mine := (closures.filter fun (c : ClosureId × Option FnId) => c.2 == some f).map Prod.fst
        return ps.addEmpty (.staticGeneric (← t.function f).name) (some f) false mine) ps = .ok mid ∧
      Served t ps closures (owners.map some) mid := by
  refine Lower.foldlM_ok (fun done mid => Served t ps closures (done.map some) mid) hstart
    fun done f rest mid hsplit hserved => ?_
  have hf : f ∈ owners := hsplit ▸ List.mem_append_right _ List.mem_cons_self
  have hlt := howners f hf
  have hfn : t.fns[f]? = some t.fns[f] := Array.getElem?_eq_getElem hlt
  refine ⟨_, by rw [ScopeTree.function_eq_ok.mpr hfn]; rfl, ?_⟩
  rw [List.map_append]
  refine hserved.addEmpty hunbound (fun hold => ?_)
    ⟨rfl, rfl, rfl, rfl, .inr ⟨f, _, rfl, hfn, rfl, rfl⟩⟩ (by simp)
  obtain ⟨f', hf', heq⟩ := List.mem_map.mp hold
  cases heq
  rw [hsplit] at hnodup
  exact (List.nodup_append.mp hnodup).2.2 f hf' f List.mem_cons_self rfl

/-- Binding the closures that need nothing succeeds, and then all closures are bound. -/
theorem bindStateless_spec (h : t.WellBound holds)
    (hall : ∀ (p : Nat) x, ps.plans[p]? = some x → x.origin ≠ none) :
    ∃ ps' closures done, ps.bindStateless t = .ok ps' ∧ Served t ps closures done ps' ∧
      (∀ c : Nat, c < t.closures.size → ∃ b, ps'.bindings.find? c = some b) ∧
      ∀ f, some f ∈ done ↔ ∃ c k, t.closures[c]? = some k ∧ ps.bindings.find? c = none ∧
        genericOwner? t k = some f := by
  obtain ⟨closures, hcs, hexact⟩ := stateless_spec h ps
  have hunbound (c : ClosureId) (f : Option FnId) (hc : (c, f) ∈ closures) :
      ps.bindings.find? c = none := by
    obtain ⟨-, -, hb, -⟩ := (hexact c f).mp hc
    exact hb
  have hmem (f : FnId) : f ∈ SortedSet.ofList (closures.filterMap Prod.snd) ↔
      ∃ c, (c, some f) ∈ closures := by
    simp
  have hnodup : (SortedSet.ofList (closures.filterMap Prod.snd)).Nodup :=
    (SortedSet.pairwise_ofList_lt (closures.filterMap Prod.snd)).imp Nat.ne_of_lt
  have hdone (f : FnId) : f ∈ SortedSet.ofList (closures.filterMap Prod.snd) ↔ ∃ c k,
      t.closures[c]? = some k ∧ ps.bindings.find? c = none ∧ genericOwner? t k = some f := by
    simp only [hmem, hexact, eq_comm (a := some f)]
  generalize howners : SortedSet.ofList (closures.filterMap Prod.snd) = owners at hmem hnodup hdone
  have hstart : Served t ps closures [] ps :=
    ⟨.refl ps, fun p x hx ho => absurd ho (hall p x hx), fun _ ho => absurd ho List.not_mem_nil,
      fun p q x y hx _ hxo => absurd hxo (hall p x hx), fun _ _ hb => hb, fun _ _ hb => .inl hb,
      fun _ _ _ hf => by cases hf⟩
  obtain ⟨mid, hmid, hserved⟩ := foldlM_served hunbound hstart hnodup fun f hf => by
    obtain ⟨c, k, hk, -, hown⟩ := (hdone f).mp hf
    exact genericOwner?_lt h hk hown
  have hbound {done : List (Option FnId)} {last : PlanTable} (hs : Served t ps closures done last)
      (hdone : ∀ c f, (c, f) ∈ closures → f ∈ done) (c : Nat) (hc : c < t.closures.size) :
      ∃ b, last.bindings.find? c = some b := by
    cases hb : ps.bindings.find? c with
    | some b => exact ⟨b, hs.kept c b hb⟩
    | none =>
      have hf := (hexact c _).mpr ⟨_, Array.getElem?_eq_getElem hc, hb, rfl⟩
      exact hs.bound c _ hf (hdone c _ hf)
  cases hshared : (closures.filter fun c => c.2 == none).map Prod.fst with
  | nil =>
    refine ⟨mid, closures, _, ?_, hserved, hbound hserved fun c f hcf => ?_, by simpa using hdone⟩
    · unfold bindStateless
      rw [hcs, Lower.ok_bind]
      dsimp only
      rw [howners, hmid, Lower.ok_bind, hshared]
      rfl
    cases f with
    | none =>
      have : c ∈ (closures.filter fun c => c.2 == none).map Prod.fst :=
        List.mem_map.mpr ⟨(c, none), List.mem_filter.mpr ⟨hcf, rfl⟩, rfl⟩
      rw [hshared] at this
      cases this
    | some f => exact List.mem_map_of_mem ((hmem f).mpr ⟨c, hcf⟩)
  | cons c rest =>
    have hstatic : IsEmpty t (emptyPlan mid.plans.size .static none true) :=
      ⟨rfl, rfl, rfl, rfl, .inl ⟨rfl, rfl⟩⟩
    have hlast := hserved.addEmpty hunbound (by simp) hstatic (by simp)
    refine ⟨_, closures, _, ?_, hshared ▸ hlast, hbound (hshared ▸ hlast) fun c f hcf => ?_,
      by simpa using hdone⟩
    · unfold bindStateless
      rw [hcs, Lower.ok_bind]
      dsimp only
      rw [howners, hmid, Lower.ok_bind, hshared]
      rfl
    cases f with
    | none => exact List.mem_append_right _ (List.mem_singleton.mpr rfl)
    | some f =>
      exact List.mem_append_left _ (List.mem_map_of_mem ((hmem f).mpr ⟨c, hcf⟩))

end ClosureEnv.PlanTable
