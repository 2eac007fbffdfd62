import ClosureEnv.Proofs.Layout.Synthesis
import ClosureEnv.Proofs.Lowered.Formed
import ClosureEnv.Run.Environment

/-!
# Lowered units of sound trees

What a lowered unit has of the tree that it is made of: a type of environment for every plan, a
function for every function, a lambda for every closure and a global for every global, all found by
their names.
-/

namespace ClosureEnv

namespace Lowered.Scheme

/-- A scheme that bodies can be lowered by. -/
structure Sound (holds : VarId → ClosureId → Prop) (r : Scheme) : Prop where
  /-- The tree is well-bound. -/
  bound : r.tree.WellBound holds
  /-- The tree is well-named. -/
  named : r.tree.WellNamed
  /-- The plans are sound. -/
  plans : r.plans.Sound r.tree
  /-- The environments are those that are planned. -/
  synthesis : r.synthesis.Sound r.tree r.plans

variable {holds : VarId → ClosureId → Prop} {r : Scheme} {u : LoweredUnit}

/-- Every plan has a type of environment. -/
theorem Sound.exists_env (h : r.Sound holds) {p : PlanId} {x : Plan}
    (hp : r.plans.plans[p]? = some x) :
    ∃ e, r.synthesis.envs[p]? = some e ∧ Synthesis.MadeFor x e := by
  have hlt : p < r.synthesis.envs.size :=
    h.synthesis.size ▸ (Array.getElem?_eq_some_iff.mp hp).1
  have he : r.synthesis.envs[p]? = some r.synthesis.envs[p] := Array.getElem?_eq_getElem hlt
  exact ⟨_, he, h.synthesis.env p x _ hp he⟩

/-- The type of environment of a plan. -/
theorem env_eq_ok {s : Synthesis} {p : PlanId} {e : EnvType} :
    s.env p = .ok e ↔ s.envs[p]? = some e :=
  Lower.orInconsistent_eq_ok

/-! ## What a unit is made of -/

/-- What lowering a unit gives. -/
structure UnitOf (r : Scheme) (u : LoweredUnit) : Prop where
  /-- The unit keeps its name. -/
  unit : u.unit = r.tree.unit
  /-- The unit has the environments that were made. -/
  envs : u.envs = r.synthesis.envs.toList
  /-- The functions are lowered, but for the one that holds the globals. -/
  functions : List.Forall₂ (fun f g => r.function f = .ok g)
    (r.tree.fns.toList.filter (!·.isSynthetic)) u.functions
  /-- The closures are lowered. -/
  lambdas : List.Forall₂ (fun k l => ∃ accesses, r.lambda k = .ok (l, accesses))
    r.tree.closures.toList u.lambdas
  /-- The ways to free variables are those that lowering the closures gives, in their order. -/
  captures : ∃ ls : List (Lambda × List CaptureAccess),
    List.Forall₂ (fun k l => r.lambda k = .ok l) r.tree.closures.toList ls ∧
      u.lambdas = ls.map Prod.fst ∧ u.captures = ls.flatMap Prod.snd
  /-- The initial values of the globals are lowered. -/
  globals : r.globals = .ok u.globals
  /-- The unit is of the generation of its environments. -/
  generation : u.generation = r.synthesis.generation
  /-- It has their report. -/
  report : u.report = r.synthesis.report
  /-- It carries on what they do. -/
  carried : u.carried = r.synthesis.carried
  /-- It has their history. -/
  history : u.history = r.synthesis.history

/-- Lowering a unit that succeeds. -/
theorem unitOf_of_unit (hu : r.unit = .ok u) : UnitOf r u := by
  unfold Scheme.unit at hu
  obtain ⟨functions, hfunctions, hu⟩ := Lower.bind_eq_ok.mp hu
  obtain ⟨globals, hglobals, hu⟩ := Lower.bind_eq_ok.mp hu
  obtain ⟨lambdas, hlambdas, hu⟩ := Lower.bind_eq_ok.mp hu
  cases hu
  refine ⟨rfl, rfl, Lower.mapM_eq_ok.mp hfunctions, ?_,
    ⟨lambdas, Lower.mapM_eq_ok.mp hlambdas, rfl, rfl⟩, hglobals, rfl, rfl, rfl, rfl⟩
  rw [List.forall₂_map_right_iff]
  exact (Lower.mapM_eq_ok.mp hlambdas).imp fun k l hl => ⟨l.2, hl⟩

/-- Lowering the entry of a scope that succeeds: no plan comes from the scope, or the environment of
the one that does is entered. -/
theorem entry?_eq_ok {cx : Inside} {i : ScopeId} {params : List VarId} {entry : Option Stmt}
    (h : r.entry? cx i params = .ok entry) :
    (entry = none ∧ ∀ p, r.plans.scopePlan.find? i = some p → ¬ r.plans.From p i) ∨
      ∃ p x e args parent, r.plans.plans[p]? = some x ∧ x.origin = some i ∧
        r.synthesis.envs[p]? = some e ∧
        (e.fields.filterMap EnvField.var).mapM (r.entryArg params) = .ok args ∧
        x.parent.mapM (r.envRef cx) = .ok parent ∧
        entry = some (.enter p e.name (Name.envLocal p) (allocationOf x.repr) args parent) := by
  unfold entry? at h
  split at h
  · next hnone =>
    cases h
    refine .inl ⟨rfl, fun p hp => ?_⟩
    cases hnone.symm.trans hp
  · -- A plan that is merged into one from further out makes no environment here.
    next p hfind =>
    obtain ⟨x, hx, h⟩ := Lower.bind_eq_ok.mp h
    rw [PlanTable.plan_eq_ok] at hx
    split at h
    · next ho =>
      obtain ⟨e, he, h⟩ := Lower.bind_eq_ok.mp h
      obtain ⟨args, hargs, h⟩ := Lower.bind_eq_ok.mp h
      obtain ⟨parent, hparent, h⟩ := Lower.bind_eq_ok.mp h
      rw [env_eq_ok] at he
      cases h
      refine .inr ⟨p, x, e, args, parent, hx, beq_iff_eq.mp ho, he, hargs, hparent, ?_⟩
      cases x.repr <;> rfl
    · next ho =>
      cases h
      refine .inl ⟨rfl, fun q hq hfrom => ho ?_⟩
      cases hfind.symm.trans hq
      obtain ⟨y, hy, hyo⟩ := hfrom
      cases hx.symm.trans hy
      rw [hyo, beq_self_eq_true]

/-- Lowering a function that succeeds. -/
theorem function_eq_ok {f : ClosureEnv.Function} {g : Function} (h : r.function f = .ok g) :
    ∃ body entry ps, r.block ⟨f.scope, none⟩ f.body = .ok body ∧
      r.entry? ⟨f.scope, none⟩ f.scope f.params = .ok entry ∧ r.params f.params = .ok ps ∧
      g = ⟨f.name, ps, withEntry entry body⟩ := by
  unfold function at h
  obtain ⟨body, hbody, h⟩ := Lower.bind_eq_ok.mp h
  obtain ⟨entry, hentry, h⟩ := Lower.bind_eq_ok.mp h
  obtain ⟨ps, hps, h⟩ := Lower.bind_eq_ok.mp h
  cases h
  exact ⟨body, entry, ps, hbody, hentry, hps, rfl⟩

/-- The body of a closure that is no block without a scope is a value. -/
theorem closureBody_eq {cx : Inside} {e : Bound.Expr}
    (hne : ∀ ss tail, e = .block (.mk none ss tail) → False) :
    r.closureBody cx e = r.expr cx e >>= fun x => return .mk [] (some x) := by
  unfold closureBody
  split
  · next ss tail => exact (hne ss tail rfl).elim
  · rfl

/-- The environment that a lambda is made with, unless that is empty. -/
def directOf : ClosureBinding → Option PlanId
  | .direct p => some p
  | .singleton _ | .fresh _ => none

/-- Lowering a closure that is bound. -/
theorem lambda_eq {k : Closure} {b : ClosureBinding} (hb : r.binding k.id = .ok b) :
    r.lambda k = (do
      let body ← r.closureBody ⟨k.scope, directOf b⟩ k.body
      let entry ← r.entry? ⟨k.scope, directOf b⟩ k.scope k.params
      let name ← r.lambdaName k.id
      let accesses ← k.freeVars.mapM (r.access ⟨k.scope, directOf b⟩ k name)
      let env ← r.synthesis.env b.plan
      return (⟨name, k.id, env.name, env.kind, ← r.params k.params, withEntry entry body⟩,
        accesses)) := by
  unfold lambda
  rw [hb]
  rfl

/-- Lowering a closure that succeeds. -/
theorem lambda_eq_ok {k : Closure} {l : Lambda} {accesses : List CaptureAccess}
    (h : r.lambda k = .ok (l, accesses)) : ∃ b body entry ps,
      r.plans.bindings.find? k.id = some b ∧
      r.closureBody ⟨k.scope, directOf b⟩ k.body = .ok body ∧
      r.entry? ⟨k.scope, directOf b⟩ k.scope k.params = .ok entry ∧ r.params k.params = .ok ps ∧
      r.synthesis.lambdaNames.find? k.id = some l.name ∧ l.params = ps ∧
      l.body = withEntry entry body := by
  obtain ⟨b, hb, -⟩ := Lower.bind_eq_ok.mp (show (r.binding k.id >>= _) = _ from h)
  rw [lambda_eq hb] at h
  obtain ⟨body, hbody, h⟩ := Lower.bind_eq_ok.mp h
  obtain ⟨entry, hentry, h⟩ := Lower.bind_eq_ok.mp h
  obtain ⟨name, hname, h⟩ := Lower.bind_eq_ok.mp h
  obtain ⟨as, has, h⟩ := Lower.bind_eq_ok.mp h
  obtain ⟨e, he, h⟩ := Lower.bind_eq_ok.mp h
  obtain ⟨ps, hps, h⟩ := Lower.bind_eq_ok.mp h
  cases h
  exact ⟨b, body, entry, ps, Lower.orInconsistent_eq_ok.mp hb, hbody, hentry, hps,
    Lower.orInconsistent_eq_ok.mp hname, rfl, rfl⟩

/-- What else lowering a closure gives: a lambda of the closure, with the environment that it is
bound to, and the ways to its free variables. -/
theorem lambda_rest {k : Closure} {l : Lambda} {accesses : List CaptureAccess}
    (h : r.lambda k = .ok (l, accesses)) : ∃ b e,
      r.plans.bindings.find? k.id = some b ∧ r.synthesis.env b.plan = .ok e ∧
      l.closure = k.id ∧ l.env = e.name ∧
      k.freeVars.mapM (r.access ⟨k.scope, directOf b⟩ k l.name) = .ok accesses := by
  obtain ⟨b, hb, -⟩ := Lower.bind_eq_ok.mp (show (r.binding k.id >>= _) = _ from h)
  rw [lambda_eq hb] at h
  obtain ⟨body, -, h⟩ := Lower.bind_eq_ok.mp h
  obtain ⟨entry, -, h⟩ := Lower.bind_eq_ok.mp h
  obtain ⟨name, -, h⟩ := Lower.bind_eq_ok.mp h
  obtain ⟨as, has, h⟩ := Lower.bind_eq_ok.mp h
  obtain ⟨e, he, h⟩ := Lower.bind_eq_ok.mp h
  obtain ⟨ps, -, h⟩ := Lower.bind_eq_ok.mp h
  cases h
  exact ⟨b, e, Lower.orInconsistent_eq_ok.mp hb, he, rfl, rfl, has⟩

/-- Lowered parameters stand for the variables. -/
theorem params_eq_ok {vars : List VarId} {ps : List Param} (h : r.params vars = .ok ps) :
    ps.map Param.var = vars := by
  have hall := Lower.mapM_eq_ok.mp h
  clear h
  induction hall with
  | nil => rfl
  | cons hp _ ih =>
    obtain ⟨name, -, hp⟩ := Lower.bind_eq_ok.mp hp
    cases hp
    rw [List.map_cons, ih]

/-! ## What is found by name -/

/-- What is found in two lists whose members belong together. -/
theorem find?_forall₂ {α β : Type} {R : α → β → Prop} {p : α → Bool} {q : β → Bool} {xs : List α}
    {ys : List β} (h : List.Forall₂ R xs ys) (hpq : ∀ x y, R x y → p x = q y) :
    (xs.find? p = none ∧ ys.find? q = none) ∨
      ∃ x y, xs.find? p = some x ∧ ys.find? q = some y ∧ R x y := by
  induction h with
  | nil => exact .inl ⟨rfl, rfl⟩
  | @cons x y xs ys hxy _ ih =>
    rw [List.find?_cons, List.find?_cons, ← hpq x y hxy]
    cases p x with
    | true => exact .inr ⟨x, y, rfl, rfl, hxy⟩
    | false => exact ih

/-- What is found by a name that only one member has. -/
theorem find?_of_nodup {α : Type} {name : α → String} {xs : List α} (hn : (xs.map name).Nodup)
    {x : α} (hx : x ∈ xs) : xs.find? (name · == name x) = some x := by
  induction xs with
  | nil => cases hx
  | cons y ys ih =>
    rw [List.map_cons, List.nodup_cons] at hn
    rw [List.find?_cons]
    rcases List.mem_cons.mp hx with rfl | hx
    · rw [beq_self_eq_true]
    · have hne : name y ≠ name x := fun heq => hn.1 (heq ▸ List.mem_map_of_mem hx)
      rw [beq_eq_false_iff_ne.mpr hne]
      exact ih hn.2 hx

section

variable (h : r.Sound holds) (hu : UnitOf r u)

include h hu

/-- The environment of a plan is found by its name. -/
theorem UnitOf.env? {p : PlanId} {e : EnvType} (he : r.synthesis.envs[p]? = some e) :
    u.env? e.name = some e := by
  unfold LoweredUnit.env?
  rw [hu.envs]
  exact find?_of_nodup h.synthesis.names (Array.mem_toList_iff.mpr (Array.mem_of_getElem? he))

/-- How the environment of a plan is kept is found by its name. -/
theorem UnitOf.representation {p : PlanId} {e : EnvType}
    (he : r.synthesis.envs[p]? = some e) : Run.representation u e.name = .ok e.kind := by
  unfold Run.representation
  have hfind : u.envs.reverse.find? (·.name == e.name) = some e := by
    rw [hu.envs]
    refine find?_of_nodup ?_
      (List.mem_reverse.mpr (Array.mem_toList_iff.mpr (Array.mem_of_getElem? he)))
    rw [List.map_reverse, List.nodup_reverse]
    exact h.synthesis.names
  rw [hfind]

omit h in
/-- A function is found by its name. -/
theorem UnitOf.function? (name : String) :
    (r.tree.fns.find? (fun f => f.name == name && !f.isSynthetic) = none ∧
        u.function? name = none) ∨
      ∃ f g, r.tree.fns.find? (fun f => f.name == name && !f.isSynthetic) = some f ∧
        u.function? name = some g ∧ r.function f = .ok g := by
  have hname (f : ClosureEnv.Function) (g : Function) (hg : r.function f = .ok g) :
      (f.name == name) = (g.name == name) := by
    obtain ⟨body, entry, ps, -, -, -, rfl⟩ := function_eq_ok hg
    rfl
  have hfind := find?_forall₂ hu.functions hname
  have heq : (r.tree.fns.toList.filter (!·.isSynthetic)).find? (fun f => f.name == name) =
      r.tree.fns.find? (fun f => f.name == name && !f.isSynthetic) := by
    rw [List.find?_filter, ← Array.find?_toList]
    refine congrArg (fun p => List.find? p _) (funext fun f => ?_)
    cases f.isSynthetic <;> cases f.name == name <;> rfl
  rw [heq] at hfind
  exact hfind

omit h in
/-- The initial values of the globals are lowered in the scope of the function that holds them. -/
theorem UnitOf.globals_forall₂ (h : r.tree.WellBound holds) :
    List.Forall₂ (fun g x => x.name = g.name ∧ g ∈ r.tree.globals ∧
      ∃ f, r.tree.fns.find? ClosureEnv.Function.isSynthetic = some f ∧
        r.expr ⟨f.scope, none⟩ g.init = .ok x.init) r.tree.globals.toList u.globals := by
  have hglobals := hu.globals
  unfold Scheme.globals at hglobals
  split at hglobals
  · next hnone =>
    have hnil : r.tree.globals.toList = [] := by
      refine List.eq_nil_iff_forall_not_mem.mpr fun g hg => ?_
      obtain ⟨f, hf, -⟩ := h.global_init g (Array.mem_toList_iff.mp hg)
      rw [hnone] at hf
      cases hf
    rw [hnil, ← Lower.pure_eq_ok.mp hglobals]
    exact .nil
  · next f hf =>
    have hall := (List.forall₂_and_left _ _).mpr ⟨fun v hv => hv, Lower.mapM_eq_ok.mp hglobals⟩
    refine hall.imp fun g x hx => ?_
    obtain ⟨hg, hx⟩ := hx
    obtain ⟨y, hy, hx⟩ := Lower.bind_eq_ok.mp hx
    cases hx
    exact ⟨rfl, Array.mem_toList_iff.mp hg, f, hf, hy⟩

omit hu in
/-- The lambda of a closure has the name that was made for it. -/
theorem Sound.name_of_lambda {k : Closure} {l : Lambda} {accesses : List CaptureAccess}
    (hk : k ∈ r.tree.closures) (hl : r.lambda k = .ok (l, accesses)) :
    l.name = Synthesis.lambdaOf r.tree k := by
  obtain ⟨c, hc⟩ := Array.mem_iff_getElem?.mp hk
  obtain ⟨-, -, -, -, -, -, -, -, hname, -⟩ := lambda_eq_ok hl
  rw [h.bound.closure_id c k hc, h.synthesis.lambdas c k hc, Option.some.injEq] at hname
  exact hname.symm

omit hu in
/-- The names of lambdas tell closures apart. -/
theorem Sound.lambdaOf_inj {c d : Nat} {k l : Closure} (hk : r.tree.closures[c]? = some k)
    (hl : r.tree.closures[d]? = some l)
    (heq : Synthesis.lambdaOf r.tree k = Synthesis.lambdaOf r.tree l) : c = d :=
  Synthesis.lambdaOf_inj h.bound h.named hk hl heq

/-- The lambda of a closure is found by its name. -/
theorem UnitOf.lambda? {c : Nat} {k : Closure} (hk : r.tree.closures[c]? = some k) :
    ∃ l accesses, u.lambda? (Synthesis.lambdaOf r.tree k) = some l ∧
      r.lambda k = .ok (l, accesses) := by
  have hmem : k ∈ r.tree.closures := Array.mem_of_getElem? hk
  have hlambdas : List.Forall₂ (fun k l => k ∈ r.tree.closures ∧
      ∃ accesses, r.lambda k = .ok (l, accesses)) r.tree.closures.toList u.lambdas := by
    rw [List.forall₂_iff_get]
    obtain ⟨hlen, hget⟩ := List.forall₂_iff_get.mp hu.lambdas
    exact ⟨hlen, fun i h₁ h₂ => ⟨Array.mem_toList_iff.mp (List.get_mem _ _), hget i h₁ h₂⟩⟩
  -- Lambdas are named apart by their closures, so looking for the name finds the closure.
  have hname (k' : Closure) (l : Lambda) (hl : k' ∈ r.tree.closures ∧
      ∃ accesses, r.lambda k' = .ok (l, accesses)) :
      (Synthesis.lambdaOf r.tree k' == Synthesis.lambdaOf r.tree k) =
        (l.name == Synthesis.lambdaOf r.tree k) := by
    obtain ⟨hk', accesses, hl⟩ := hl
    rw [h.name_of_lambda hk' hl]
  rcases find?_forall₂ hlambdas hname with ⟨hnone, -⟩ | ⟨k', l, hfind, hl, hk', accesses, hlow⟩
  · have := List.find?_eq_none.mp hnone k (Array.mem_toList_iff.mpr hmem)
    simp at this
  · have heq : Synthesis.lambdaOf r.tree k' = Synthesis.lambdaOf r.tree k := by
      have hsome := List.find?_some hfind
      simpa using hsome
    obtain ⟨d, hd⟩ := Array.mem_iff_getElem?.mp hk'
    cases h.lambdaOf_inj hd hk heq
    cases hd.symm.trans hk
    exact ⟨l, accesses, hl, hlow⟩

end

end Lowered.Scheme

/-- What lowering a unit goes through before its bodies: its captures, its plans, its environments
and what became of each plan. -/
structure Prepared (t : ScopeTree) (options : LowerOptions) (baseline : Option Baseline)
    (a : Captures) (ps : PlanTable) (s : Synthesis) (xs : List Synthesis.Settlement) : Prop where
  /-- The baseline is of the unit. -/
  sameUnit : ∀ b ∈ baseline, b.unit = t.unit
  analyzed : Captures.analyze t = .ok a
  planned : planEnvironments t a options = .ok ps
  synthesized : synthesize t ps options baseline = .ok s
  captures : a.Sound t
  plans : ps.Sound t
  account : Synthesis.Account t ps options baseline s xs

/-- Bodies can be lowered by what has been prepared. -/
theorem Prepared.sound {t : ScopeTree} {options : LowerOptions} {baseline : Option Baseline}
    {a : Captures} {ps : PlanTable} {s : Synthesis} {xs : List Synthesis.Settlement}
    (h : Prepared t options baseline a ps s xs) {holds : VarId → ClosureId → Prop}
    (hw : t.WellBound holds) (hn : t.WellNamed) : Lowered.Scheme.Sound holds ⟨t, ps, s⟩ :=
  ⟨hw, hn, h.plans, Synthesis.sound_of_synthesize hw hn h.plans h.synthesized⟩

/-- What lowering a unit goes through as a whole. -/
structure Stages (t : ScopeTree) (options : LowerOptions) (baseline : Option Baseline)
    (u : LoweredUnit) (a : Captures) (ps : PlanTable) (s : Synthesis)
    (xs : List Synthesis.Settlement) : Prop
    extends Prepared t options baseline a ps s xs where
  unit : Lowered.Scheme.UnitOf ⟨t, ps, s⟩ u

/-- Lowering a unit that succeeds has gone through all stages. -/
theorem exists_stages {t : ScopeTree} {holds : VarId → ClosureId → Prop} (h : t.WellBound holds)
    {options : LowerOptions} {baseline : Option Baseline} {u : LoweredUnit}
    (hu : lowerUnit t options baseline = .ok u) :
    ∃ a ps s xs, Stages t options baseline u a ps s xs := by
  unfold lowerUnit at hu
  obtain ⟨⟨⟩, -, hu⟩ := Lower.bind_eq_ok.mp hu
  obtain ⟨⟨⟩, hbaseline, hu⟩ := Lower.bind_eq_ok.mp hu
  obtain ⟨a, ha, hu⟩ := Lower.bind_eq_ok.mp hu
  obtain ⟨ps, hps, hu⟩ := Lower.bind_eq_ok.mp hu
  obtain ⟨s, hs, hu⟩ := Lower.bind_eq_ok.mp hu
  obtain ⟨a', ha', hsound⟩ := Captures.analyze_spec h
  obtain rfl : a' = a := Except.ok.inj (ha'.symm.trans ha)
  obtain ⟨ps', hps', hplans, -⟩ := planEnvironments_spec h hsound options
  obtain rfl : ps' = ps := Except.ok.inj (hps'.symm.trans hps)
  obtain ⟨xs, hxs⟩ := Synthesis.account_of_synthesize h hplans hs
  refine ⟨a', ps', s, xs, ⟨?_, ha, hps, hs, hsound, hplans, hxs⟩,
    Lowered.Scheme.unitOf_of_unit hu⟩
  rintro b rfl
  unfold checkBaseline at hbaseline
  dsimp only at hbaseline
  split at hbaseline
  · next heq => exact beq_iff_eq.mp heq
  · cases hbaseline

end ClosureEnv
