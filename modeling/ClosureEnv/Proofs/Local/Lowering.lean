import ClosureEnv.Proofs.Layout.Chain
import ClosureEnv.Proofs.Local.Regions
import ClosureEnv.Proofs.Syntax.Parsed

/-!
# Lowering is local to functions

The environments of a function depend on the function and on what it sees of other items, and on
nothing else of the module. So they stay what they are when another module of the unit with the same
function is lowered with the layouts that the first one has left (`lowerChain_local`), whatever
became of other functions and of globals.
-/

namespace ClosureEnv

open Synthesis

/-- An environment has the name, the representation, the parent and the fields of another. -/
structure EnvType.SameLayout (e e' : EnvType) : Prop where
  name : e'.name = e.name
  kind : e'.kind = e.kind
  parent : e'.parent = e.parent
  fields : e'.fields.map (fun f => (f.name, f.ty)) = e.fields.map fun f => (f.name, f.ty)

/-- A later unit keeps the environments of a function, and has no others for it. -/
structure LoweredUnit.KeepsFor (u : LoweredUnit) (fn : String) (u' : LoweredUnit) : Prop where
  identity_iff : ∀ i : EnvIdentity, i.OfFn fn →
    ((∃ e ∈ u.envs, e.identity = i) ↔ ∃ e' ∈ u'.envs, e'.identity = i)
  same : ∀ e ∈ u.envs, ∀ e' ∈ u'.envs, e.identity.OfFn fn → e'.identity = e.identity →
    e.SameLayout e'
  /-- One transition is recorded for each of them. -/
  unchanged : ∀ e ∈ u.envs, e.identity.OfFn fn → ∀ x,
    (e.identity.text, x) ∈ u'.report.transitions ↔ x = .unchanged e.name

/-- The settlement of an environment. -/
theorem Synthesis.Account.exists_of_env {t : ScopeTree} {ps : PlanTable} {options : LowerOptions}
    {baseline : Option Baseline} {s : Synthesis} {xs : List Settlement}
    (h : Account t ps options baseline s xs) {e : EnvType} (he : e ∈ s.envs.toList) :
    ∃ x ∈ xs, x.env = e ∧ ∃ p : Nat, ps.plans[p]? = some x.plan := by
  rw [h.envs] at he
  obtain ⟨x, hx, rfl⟩ := List.mem_map.mp he
  obtain ⟨p, hp⟩ := List.mem_iff_getElem?.mp hx
  refine ⟨x, hx, rfl, p, ?_⟩
  rw [← Array.getElem?_toList, ← h.plans, List.getElem?_map, hp, Option.map_some]

/-! ## Two units of one function -/

section

variable {t t' : ScopeTree} {options : LowerOptions} {baseline : Option Baseline}
  {u u' : LoweredUnit} {a a' : Captures} {ps ps' : PlanTable} {s s' : Synthesis}
  {xs xs' : List Settlement} {holds holds' : VarId → ClosureId → Prop} {m : Pairing} {i i' : FnId}
  {fn : String}

/-- The plans of a unit are those that its tree tells. -/
theorem Stages.told (h : Stages t options baseline u a ps s xs) (ht : t.WellBound holds) :
    ps.Told t options.merge := by
  obtain ⟨a₁, ps₁, ha, hps, -, htold⟩ := planEnvironments_told ht options
  cases h.analyzed.symm.trans ha
  cases h.planned.symm.trans hps
  exact htold

/-- The environments of plans that stand for each other are taken over. -/
theorem Stages.exists_takenOver (h : Stages t options baseline u a ps s xs)
    (h' : Stages t' options (some u.nextBaseline) u' a' ps' s' xs')
    (hm : m.Matches t t' holds holds') (hn : t.WellNamed)
    (hsorted : SortedMap.Sorted (priorLayouts baseline)) {p p' : PlanId}
    (hpp : m.Plans fn ps ps' p p') : ∃ x ∈ xs, ∃ x' ∈ xs',
      ps.plans[p]? = some x.plan ∧ ps'.plans[p']? = some x'.plan ∧ TakenOver x x' := by
  have halike : PlansAlike t t' ps ps' (m.Plans fn ps ps') :=
    hm.plansAlike h.plans h'.plans (h.told hm.bound) (h'.told hm.bound')
  obtain ⟨x, hx, x', hx', hp, hp', -, -, htaken⟩ := h.account.takenOver h'.account hn h.plans
    hm.bound.preorder (h.leaves hn hsorted).prior halike p p' hpp
  exact ⟨x, hx, x', hx', hp, hp', htaken⟩

/-- An environment of the function is taken over. -/
theorem Stages.takenOver_of_ofFn (h : Stages t options baseline u a ps s xs)
    (h' : Stages t' options (some u.nextBaseline) u' a' ps' s' xs')
    (hm : m.Matches t t' holds holds') (hf : m.SameFunction t t' i i' fn) (hn : t.WellNamed)
    (hsorted : SortedMap.Sorted (priorLayouts baseline)) {e : EnvType} (he : e ∈ u.envs)
    (hid : e.identity.OfFn fn) : ∃ x ∈ xs, ∃ x' ∈ xs', x.env = e ∧ TakenOver x x' := by
  rw [h.unit.envs] at he
  obtain ⟨x, hx, rfl, p, hp⟩ := h.account.exists_of_env he
  rw [h.account.identity_env hx] at hid
  obtain ⟨p', hpp⟩ := hm.exists_plans hn hf h.plans (h.told hm.bound) (h'.told hm.bound') hp hid
  obtain ⟨y, hy, x', hx', hp₁, -, htaken⟩ := h.exists_takenOver h' hm hn hsorted hpp
  have hplan : y.plan = x.plan := Option.some.inj (hp₁.symm.trans hp)
  cases h.account.eq_of_identity h.plans hn hy hx (by rw [hplan])
  exact ⟨x, hx, x', hx', rfl, htaken⟩

/-- A unit that is lowered with what another one of the same function leaves keeps the environments
of the function. -/
theorem Stages.keepsFor (h : Stages t options baseline u a ps s xs)
    (h' : Stages t' options (some u.nextBaseline) u' a' ps' s' xs')
    (hm : m.Matches t t' holds holds') (hf : m.SameFunction t t' i i' fn) (hn : t.WellNamed)
    (hn' : t'.WellNamed) (hsorted : SortedMap.Sorted (priorLayouts baseline)) :
    u.KeepsFor fn u' := by
  have htaken {e : EnvType} := h.takenOver_of_ofFn h' hm hf hn hsorted (e := e)
  refine ⟨fun j hj => ⟨?_, ?_⟩, fun e he e' he' hid heq => ?_, fun e he hid tr => ?_⟩
  · rintro ⟨e, he, rfl⟩
    obtain ⟨x, hx, x', hx', rfl, htaken⟩ := htaken he hj
    refine ⟨x'.env, ?_, htaken.identity⟩
    rw [h'.unit.envs, h'.account.envs]
    exact List.mem_map_of_mem hx'
  · -- The other way: a plan of the function in the second tree is one of the first.
    rintro ⟨e', he', rfl⟩
    rw [h'.unit.envs] at he'
    obtain ⟨x', hx', rfl, p', hp'⟩ := h'.account.exists_of_env he'
    rw [h'.account.identity_env hx'] at hj ⊢
    obtain ⟨p, hpp⟩ := hm.flip.exists_plans hn' hf.flip h'.plans (h'.told hm.bound')
      (h.told hm.bound) hp' hj
    obtain ⟨x, hx, y', hy', -, hp₁, htaken⟩ := h.exists_takenOver h' hm hn hsorted hpp.flip
    refine ⟨x.env, ?_, ?_⟩
    · rw [h.unit.envs, h.account.envs]
      exact List.mem_map_of_mem hx
    · have hplan : y'.plan = x'.plan := Option.some.inj (hp₁.symm.trans hp')
      rw [← htaken.identity, h'.account.identity_env hy', hplan]
  · obtain ⟨x, hx, x', hx', rfl, htaken⟩ := htaken he hid
    rw [h'.unit.envs] at he'
    obtain ⟨y', hy', rfl, -⟩ := h'.account.exists_of_env he'
    have hplans : y'.plan.identity = x'.plan.identity := by
      rw [← h'.account.identity_env hy', heq, ← htaken.identity, h'.account.identity_env hx']
    cases h'.account.eq_of_identity h'.plans hn' hy' hx' (congrArg EnvIdentity.text hplans)
    exact ⟨htaken.name, htaken.kind, htaken.parent, htaken.fields⟩
  · obtain ⟨x, hx, x', hx', rfl, htaken⟩ := htaken he hid
    have hplan : x.env.identity = x'.plan.identity :=
      htaken.identity.symm.trans (h'.account.identity_env hx')
    rw [h'.unit.report, hplan, h'.account.mem_transitions_iff h'.plans hn' hx', htaken.record,
      ← hplan]
    exact ⟨fun heq => congrArg Prod.snd heq, fun heq => heq ▸ rfl⟩

end

/-! ## Chains of lowerings -/

/-- What is left after some units, which start from `baseline`. -/
def leftBy (baseline : Option Baseline) (us : List LoweredUnit) : Option Baseline :=
  us.foldl (fun _ u => some u.nextBaseline) baseline

/-- After a unit, it is what the unit leaves. -/
theorem leftBy_concat (baseline : Option Baseline) (us : List LoweredUnit) (u : LoweredUnit) :
    leftBy baseline (us ++ [u]) = some u.nextBaseline := by
  rw [leftBy, List.foldl_append]
  rfl

/-- What is left is in the order of the identities. -/
theorem sorted_leftBy {baseline : Option Baseline} (hb : SortedMap.Sorted (priorLayouts baseline))
    (us : List LoweredUnit) : SortedMap.Sorted (priorLayouts (leftBy baseline us)) := by
  induction us generalizing baseline with
  | nil => exact hb
  | cons u us ih =>
    have hnext : SortedMap.Sorted (priorLayouts (some u.nextBaseline)) := SortedMap.sorted_ofList _
    exact ih hnext

/-- The last of a chain of lowerings is done with what those before it leave. -/
theorem lowerChain_concat {x : ScopeTree × LowerOptions} :
    ∀ (steps : List (ScopeTree × LowerOptions)) {baseline : Option Baseline}
      {ws : List LoweredUnit},
    lowerChain baseline (steps ++ [x]) = .ok ws → ∃ us u, lowerChain baseline steps = .ok us ∧
      lowerUnit x.1 x.2 (leftBy baseline us) = .ok u ∧ ws = us ++ [u]
  | [], baseline, ws, h => by
    obtain ⟨u, hu, h⟩ := Lower.bind_eq_ok.mp h
    obtain ⟨vs, hvs, h⟩ := Lower.bind_eq_ok.mp h
    cases hvs
    cases h
    exact ⟨[], u, rfl, hu, rfl⟩
  | y :: steps, baseline, ws, h => by
    obtain ⟨v, hv, h⟩ := Lower.bind_eq_ok.mp h
    obtain ⟨vs, hvs, h⟩ := Lower.bind_eq_ok.mp h
    cases h
    obtain ⟨us, u, hus, hu, rfl⟩ := lowerChain_concat steps hvs
    refine ⟨v :: us, u, ?_, hu, rfl⟩
    rw [lowerChain, hv, Lower.ok_bind, hus]
    rfl

/-- The text of a function `main` below a global that it refers to. -/
def Syntax.mainText : String :=
  "let k: Bool = true; fn main() \x7b let x = k; let f = || x; f() \x7d"

/-- The text of the function below a changed global, and below another function. -/
def Syntax.editedText : String :=
  "fn other() \x7b let y = true; || y \x7d let k: Bool = false; " ++
    "fn main() \x7b let x = k; let f = || x; f() \x7d"

/-- Whether a function is written with the same tokens in two modules that show it the same. -/
def Syntax.isShared (m m' : Syntax.Module) (f f' : Syntax.FnDecl) : Bool :=
  f.kinds == f'.kinds && (f.kinds.all (decide <| ·.Writable) &&
    (decide (f.body.depth ≤ maxNesting) && (decide (f'.body.depth ≤ maxNesting) &&
      f.outer.all fun x => decide (m.signature? x = m'.signature? x))))

end ClosureEnv
