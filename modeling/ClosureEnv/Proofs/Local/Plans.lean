import ClosureEnv.Proofs.Binding.Keys
import ClosureEnv.Proofs.Local.Layouts
import ClosureEnv.Proofs.Local.Pairing

/-!
# Plans of parts that stand for each other

Where parts of two trees stand for each other, the plans of their scopes want the same of their
environments: the same identity, representation and fields, and parents that stand for each other.
So do the empty plans of a function whose closures stand for each other.
-/

namespace ClosureEnv

/-- Environments of a function: those of its scopes, and the empty one of its own. -/
def EnvIdentity.OfFn (fn : String) : EnvIdentity → Prop
  | scope key => ScopeTree.KeyOf fn key
  | static => False
  | staticGeneric name => name = fn

namespace Pairing

/-- The scopes and the closures of two functions of one name, and with the same type parameters,
stand for each other. -/
structure SameFunction (m : Pairing) (t t' : ScopeTree) (i i' : FnId) (name : String) : Prop where
  fn : ∃ f f', t.fns[i]? = some f ∧ t'.fns[i']? = some f' ∧ f.name = name ∧ f'.name = name ∧
    f'.generics = f.generics
  owner : ∀ (c : Nat) k, t.closures[c]? = some k → (k.owner = i ↔ ∃ d, m.closure c d)
  owner' : ∀ (d : Nat) l, t'.closures[d]? = some l → (l.owner = i' ↔ ∃ c, m.closure c d)
  scope : ∀ (s : Nat) x, t.scopes[s]? = some x → ScopeTree.KeyOf name x.key → ∃ s', m.scope s s'
  scope' : ∀ (s' : Nat) y, t'.scopes[s']? = some y → ScopeTree.KeyOf name y.key → ∃ s, m.scope s s'

/-- The trees may change places. -/
theorem SameFunction.flip {m : Pairing} {t t' : ScopeTree} {i i' : FnId} {name : String}
    (h : m.SameFunction t t' i i' name) : m.flip.SameFunction t' t i' i name := by
  obtain ⟨f, f', hf, hf', hn, hn', hg⟩ := h.fn
  exact ⟨⟨f', f, hf', hf, hn', hn, hg.symm⟩, h.owner', h.owner, h.scope', h.scope⟩

/-- Plans from scopes that stand for each other, or the empty ones of the function. -/
def Plans (m : Pairing) (name : String) (ps ps' : PlanTable) (p p' : PlanId) : Prop :=
  (∃ s s', m.scope s s' ∧ ps.From p s ∧ ps'.From p' s') ∨
    ∃ x x', ps.plans[p]? = some x ∧ ps'.plans[p']? = some x' ∧
      x.identity = .staticGeneric name ∧ x'.identity = .staticGeneric name

/-- The trees may change places. -/
theorem Plans.flip {m : Pairing} {name : String} {ps ps' : PlanTable} {p p' : PlanId}
    (h : m.Plans name ps ps' p p') : m.flip.Plans name ps' ps p' p := by
  rcases h with ⟨s, s', hs, hp, hp'⟩ | ⟨x, x', hx, hx', hid, hid'⟩
  · exact .inl ⟨s', s, hs, hp', hp⟩
  · exact .inr ⟨x', x, hx', hx, hid', hid⟩

namespace Matches

variable {m : Pairing} {t t' : ScopeTree} {holds holds' : VarId → ClosureId → Prop}
  {merge : MergePolicy} {ps ps' : PlanTable} {i i' : FnId} {name : String}
  (h : m.Matches t t' holds holds')

include h

/-- A closure of the function that needs nothing and uses a type parameter does so in both trees. -/
theorem hasGeneric (hn : t.WellNamed) (hf : m.SameFunction t t' i i' name)
    (hg : t.HasGeneric name) : t'.HasGeneric name := by
  obtain ⟨c, k, g, hk, hno, hgk, hname, hgeneric, huses⟩ := hg
  obtain ⟨f, f', hfi, hfi', hfn, hfn', hgenerics⟩ := hf.fn
  have hown : k.owner = i := PlanTable.fn_name_inj hn hgk hfi (hname.trans hfn.symm)
  obtain ⟨d, hc⟩ := (hf.owner c k hk).mp hown
  obtain ⟨l, hl, -⟩ := h.there.closure c d k hc hk
  have hown' := (hf.owner' d l hl).mpr ⟨c, hc⟩
  cases (hown ▸ hgk).symm.trans hfi
  refine ⟨d, l, f', hl, h.not_needs hc hno, hown'.symm ▸ hfi', hfn', ?_,
    h.usesTypeParam hc hk hl huses⟩
  rw [Function.isGeneric, hgenerics]
  exact hgeneric

/-- There is a plan for the counterpart of a scope that there is a plan for. -/
theorem exists_plan {s s' : ScopeId} (hs : m.scope s s') {p : PlanId} (hp : ps.From p s)
    (ht : ps.Told t merge) (ht' : ps'.Told t' merge) :
    ∃ p', ps'.From p' s' :=
  (ht'.env s').mp (h.hasEnv hs ((ht.env s).mpr ⟨p, hp⟩))

/-- A plan of the function has a counterpart. -/
theorem exists_plans (hn : t.WellNamed) (hf : m.SameFunction t t' i i' name) (hps : ps.Sound t)
    (ht : ps.Told t merge) (ht' : ps'.Told t' merge) {p : Nat} {x : Plan}
    (hx : ps.plans[p]? = some x) (hid : x.identity.OfFn name) :
    ∃ p', m.Plans name ps ps' p p' := by
  cases ho : x.origin with
  | some s =>
    obtain ⟨-, y, hy, hidentity⟩ := hps.linking.placed.origin p x s hx ho
    rw [hidentity] at hid
    obtain ⟨s', hs⟩ := hf.scope s y hy hid
    obtain ⟨p', hp'⟩ := h.exists_plan hs ⟨x, hx, ho⟩ ht ht'
    exact ⟨p', .inl ⟨s, s', hs, ⟨x, hx, ho⟩, hp'⟩⟩
  | none =>
    rcases (hps.empty p x hx ho).kind with ⟨hidentity, -⟩ | ⟨-, g, -, -, hidentity, -⟩
    · rw [hidentity] at hid
      exact hid.elim
    · rw [hidentity] at hid
      rw [hid] at hidentity
      obtain ⟨p', x', hx', hidentity'⟩ := (ht'.generic name).mpr
        (h.hasGeneric hn hf ((ht.generic name).mp ⟨p, x, hx, hidentity⟩))
      exact ⟨p', .inr ⟨x, x', hx, hx', hidentity, hidentity'⟩⟩

variable (hps : ps.Sound t) (hps' : ps'.Sound t') (ht : ps.Told t merge) (ht' : ps'.Told t' merge)
include hps hps' ht ht'

/-- The variables of an environment stand for those of its counterpart. -/
theorem slots {s s' : ScopeId} (hs : m.scope s s') {p p' : Nat} {x x' : Plan}
    (hx : ps.plans[p]? = some x) (hx' : ps'.plans[p']? = some x') (ho : x.origin = some s)
    (ho' : x'.origin = some s') : List.Forall₂ m.var x.slots x'.slots := by
  refine h.there.vars_inOrder.forall₂ (hps.linking.placed.slots p x hx)
    (hps'.linking.placed.slots p' x' hx') (fun v hv => ?_) fun w hw => ?_
  · obtain ⟨w, hvw, hw⟩ := h.exists_var_of_heldAt hs ((ht.slot p x s v hx ho).mp hv)
    exact ⟨w, (ht'.slot p' x' s' w hx' ho').mpr hw, hvw⟩
  · obtain ⟨v, hvw, hv⟩ := h.flip.exists_var_of_heldAt hs ((ht'.slot p' x' s' w hx' ho').mp hw)
    exact ⟨v, (ht.slot p x s v hx ho).mpr hv, hvw⟩

omit hps hps' ht ht' in
/-- Variables that stand for each other have the same names and types. -/
theorem mapM_var {vs ws : List VarId} (hs : List.Forall₂ m.var vs ws) {ys : List Variable}
    (hys : vs.mapM t.var = .ok ys) : ∃ ys', ws.mapM t'.var = .ok ys' ∧
      ys'.map Variable.name = ys.map Variable.name ∧ ys'.map Variable.ty = ys.map Variable.ty := by
  induction hs generalizing ys with
  | nil =>
    cases hys
    exact ⟨[], rfl, rfl, rfl⟩
  | @cons v w vs ws hvw _ ih =>
    rw [List.mapM_cons, Lower.bind_eq_ok] at hys
    obtain ⟨y, hy, hys⟩ := hys
    obtain ⟨zs, hzs, hys⟩ := Lower.bind_eq_ok.mp hys
    cases hys
    obtain ⟨y', hy', hname, hty, -⟩ := h.there.var v w y hvw (ScopeTree.var_eq_ok.mp hy)
    obtain ⟨zs', hzs', hnames, htys⟩ := ih hzs
    refine ⟨y' :: zs', ?_, ?_, ?_⟩
    · rw [List.mapM_cons, ScopeTree.var_eq_ok.mpr hy', Lower.ok_bind, hzs']
      rfl
    · rw [List.map_cons, List.map_cons, hname, hnames]
    · rw [List.map_cons, List.map_cons, hty, htys]

omit hps hps' ht ht' in
/-- Variables that stand for each other make the same fields. -/
theorem desiredFields_eq {x x' : Plan} (hv : ∀ v ∈ x.slots, ∃ y, t.vars[v]? = some y)
    (hs : List.Forall₂ m.var x.slots x'.slots) :
    Synthesis.desiredFields t' x' = Synthesis.desiredFields t x := by
  obtain ⟨ys, hys⟩ := Lower.mapM_exists (f := t.var) (l := x.slots) fun v hmem => by
    obtain ⟨y, hy⟩ := hv v hmem
    exact ⟨y, ScopeTree.var_eq_ok.mpr hy⟩
  obtain ⟨ys', hys', hnames, htys⟩ := h.mapM_var hs hys
  have hzip (zs : List Variable) (names : List String) :
      List.zipWith (fun name (v : Variable) => (⟨name, v.ty⟩ : LayoutField)) names zs =
        List.zipWith (fun name ty => ⟨name, ty⟩) names (zs.map Variable.ty) := by
    rw [List.zipWith_map_right]
  unfold Synthesis.desiredFields
  rw [hys, hys', Lower.ok_bind, Lower.ok_bind, hnames, hzip ys', hzip ys, htys]

omit hps' in
/-- The parent of a plan stands for that of its counterpart. -/
theorem exists_parent {s s' : ScopeId} (hs : m.scope s s') {p p' q : PlanId} (hp : ps.From p s)
    (hp' : ps'.From p' s') (hq : ps.parent? p = some q) :
    ∃ q' o o', ps'.parent? p' = some q' ∧ m.scope o o' ∧ ps.From q o ∧ ps'.From q' o' := by
  obtain ⟨s₁, o, hs₁, ho, -⟩ := hps.linking.parent p q hq
  cases hp.unique hs₁
  obtain ⟨o', hoo, hl⟩ := h.exists_of_linksTo hs ((ht.link p q s o hp ho).mp hq)
  obtain ⟨q', hq'⟩ := (ht'.env o').mp hl.1.outer
  exact ⟨q', o, o', (ht'.link p' q' s' o' hp' hq').mpr hl, hoo, ho, hq'⟩

omit hps hps' in
/-- Plans of scopes that stand for each other are on the heap together. -/
theorem repr_eq {s s' : ScopeId} (hs : m.scope s s') {p p' : Nat} {x x' : Plan}
    (hx : ps.plans[p]? = some x) (hx' : ps'.plans[p']? = some x') (ho : x.origin = some s)
    (ho' : x'.origin = some s') : x'.repr = x.repr := by
  have hon : ps.OnHeap p ↔ x.repr = .reference :=
    ⟨fun ⟨y, hy, hr⟩ => Option.some.inj (hx.symm.trans hy) ▸ hr, fun hr => ⟨x, hx, hr⟩⟩
  have hon' : ps'.OnHeap p' ↔ x'.repr = .reference :=
    ⟨fun ⟨y, hy, hr⟩ => Option.some.inj (hx'.symm.trans hy) ▸ hr, fun hr => ⟨x', hx', hr⟩⟩
  have hheap : x.repr = .reference ↔ x'.repr = .reference := by
    rw [← hon, ← hon', ht.heap p s ⟨x, hx, ho⟩, ht'.heap p' s' ⟨x', hx', ho'⟩]
    exact ⟨h.onHeap hs, h.flip.onHeap hs⟩
  revert hheap
  cases x.repr <;> cases x'.repr <;> simp

/-- Plans of scopes that stand for each other have parents that do, or none. -/
theorem rel_parent {s s' : ScopeId} (hs : m.scope s s') {p p' : Nat} {x x' : Plan}
    (hx : ps.plans[p]? = some x) (hx' : ps'.plans[p']? = some x') (ho : x.origin = some s)
    (ho' : x'.origin = some s') : Option.Rel (m.Plans name ps ps') x.parent x'.parent := by
  have hp : ps.From p s := ⟨x, hx, ho⟩
  have hp' : ps'.From p' s' := ⟨x', hx', ho'⟩
  cases hq : x.parent with
  | some q =>
    obtain ⟨q', o, o', hq', hoo, hqo, hqo'⟩ := h.exists_parent hps ht ht' hs hp hp'
      (PlanTable.parent?_eq_some.mpr ⟨x, hx, hq⟩)
    obtain ⟨y, hy, hyq⟩ := PlanTable.parent?_eq_some.mp hq'
    cases hx'.symm.trans hy
    rw [hyq]
    exact .some (.inl ⟨o, o', hoo, hqo, hqo'⟩)
  | none =>
    cases hq' : x'.parent with
    | none => exact .none
    | some q' =>
      obtain ⟨q, -, -, hpq, -⟩ := h.flip.exists_parent hps' ht' ht hs hp' hp
        (PlanTable.parent?_eq_some.mpr ⟨x', hx', hq'⟩)
      obtain ⟨y, hy, hyq⟩ := PlanTable.parent?_eq_some.mp hpq
      cases hx.symm.trans hy
      cases hq.symm.trans hyq

/-- Plans of parts that stand for each other want the same. -/
theorem plansAlike : Synthesis.PlansAlike t t' ps ps' (m.Plans name ps ps') := by
  rintro p p' (⟨s, s', hs, hp, hp'⟩ | ⟨x, x', hx, hx', hid, hid'⟩)
  · obtain ⟨x, hx, ho⟩ := hp
    obtain ⟨x', hx', ho'⟩ := hp'
    obtain ⟨hsing, sc, hsc, hid⟩ := hps.linking.placed.origin p x s hx ho
    obtain ⟨hsing', sc', hsc', hid'⟩ := hps'.linking.placed.origin p' x' s' hx' ho'
    obtain ⟨y, hy, hkey, -⟩ := h.there.scope s s' sc hs hsc
    cases hy.symm.trans hsc'
    refine ⟨x, x', hx, hx', by rw [hid, hid', hkey], h.repr_eq ht ht' hs hx hx' ho ho',
      hsing'.trans hsing.symm, ?_, h.rel_parent hps hps' ht ht' hs hx hx' ho ho'⟩
    refine h.desiredFields_eq (fun v hv => ?_) (h.slots hps hps' ht ht' hs hx hx' ho ho')
    obtain ⟨-, -, y, -, hy, -⟩ := hps.linking.placed.slot p x v hx hv
    exact ⟨y, hy⟩
  · -- Plans of functions have no slots and no parents, and are all made alike.
    have hempty := hps.isEmpty_of_generic hx hid
    have hempty' := hps'.isEmpty_of_generic hx' hid'
    refine ⟨x, x', hx, hx', hid'.trans hid.symm, hempty'.repr.trans hempty.repr.symm, ?_, ?_, ?_⟩
    · rcases hempty.kind with ⟨hstatic, -⟩ | ⟨-, -, -, -, -, hsing⟩
      · cases hid.symm.trans hstatic
      rcases hempty'.kind with ⟨hstatic, -⟩ | ⟨-, -, -, -, -, hsing'⟩
      · cases hid'.symm.trans hstatic
      exact hsing'.trans hsing.symm
    · unfold Synthesis.desiredFields
      rw [hempty.slots, hempty'.slots]
      rfl
    · rw [hempty.parent, hempty'.parent]
      exact .none

end Matches

end Pairing

end ClosureEnv
