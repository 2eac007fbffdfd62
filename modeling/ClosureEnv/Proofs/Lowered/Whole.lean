import ClosureEnv.Proofs.Binding.Opened
import ClosureEnv.Proofs.Binding.Source
import ClosureEnv.Proofs.Lowered.Bodies
import ClosureEnv.Proofs.Lowered.Entries

/-!
# Lowered units are well-formed

Whatever the options and the baseline, a unit that a bound module is lowered to is well-formed
(`lowerUnit_formed`). Its bodies are so by the induction along bound code; that every environment of
a scope is entered in one place comes from binding, which opens every scope once.
-/

namespace ClosureEnv

open Lowered (Scheme Inside Heads Lambda Global CaptureAccess)
open Lowered.Scheme (directOf env_eq_ok)

variable {t : ScopeTree} {holds : VarId → ClosureId → Prop} {options : LowerOptions}
  {baseline : Option Baseline} {u : LoweredUnit} {a : Captures} {ps : PlanTable} {s : Synthesis}
  {xs : List Synthesis.Settlement} {cx : Inside} {param : Option String} {heads : Heads}
  {scope : ScopeId} {vis : VarId → Prop}

namespace Stages

variable (hs : Stages t options baseline u a ps s xs) (h : t.WellBound holds)

include hs h

/-! ## Bodies -/

/-- A block without a scope of its own is well-formed. -/
theorem plainOf {b : Bound.Block} {x : Lowered.Block} (hspot : Spot t ps s cx param heads scope vis)
    (hscope : b.scope = none) (hb : b.Scoped t holds scope vis)
    (hx : Scheme.block ⟨t, ps, s⟩ cx b = .ok x) : (u.setting t ps param).BlockOf heads b x := by
  obtain ⟨o, ss, tail⟩ := b
  obtain rfl : o = none := hscope
  rw [Scheme.block] at hx
  obtain ⟨entry, hentry, hx⟩ := Lower.bind_eq_ok.mp hx
  cases hentry
  obtain ⟨xs, hxs, hx⟩ := Lower.bind_eq_ok.mp hx
  obtain ⟨y, hy, hx⟩ := Lower.bind_eq_ok.mp hx
  cases hx
  exact .plain (hs.stmtsOf h ss hspot hb.1 hxs) (hs.optionOf h tail (hspot.after h hb.1) hb.2 hy)

/-- The body of a closure is well-formed. -/
theorem bodyOf {e : Bound.Expr} {x : Lowered.Block} (hspot : Spot t ps s cx param heads scope vis)
    (he : Bound.BodyScoped t holds scope vis e)
    (hx : Scheme.closureBody ⟨t, ps, s⟩ cx e = .ok x) :
    (u.setting t ps param).BodyOf heads e x := by
  unfold Bound.BodyScoped at he
  split at he
  · exact .block (hs.plainOf h hspot rfl he hx)
  · next hne =>
    rw [Scheme.closureBody_eq hne] at hx
    obtain ⟨y, hy, hx⟩ := Lower.bind_eq_ok.mp hx
    cases hx
    exact .expr (hs.exprOf h e hspot he hy)

/-- The head of a body, where nothing has been entered yet, and the spot after it. -/
theorem start {params : List VarId} {entry : Option Lowered.Stmt}
    (hstart : Vantage t ps s cx param cx.scope vis)
    (hentry : Scheme.entry? ⟨t, ps, s⟩ cx cx.scope params = .ok entry) :
    ∃ within, (u.setting t ps param).Enters [] cx.scope params entry within ∧
      Spot t ps s cx param within cx.scope vis := by
  obtain ⟨within, henters, hentered⟩ := hstart.code.enters h hs
    (fun p o e _ hco hoc _ => absurd (hco.trans_around h.preorder hoc) (Around.irrefl h.preorder))
    hentry
  exact ⟨within, henters, hstart, hentered⟩

/-- Lowered functions are well-formed. -/
theorem functionOf {f : Function} {g : Lowered.Function} (hf : f ∈ t.fns)
    (hsyn : f.isSynthetic = false) (hg : Scheme.function ⟨t, ps, s⟩ f = .ok g) :
    (u.setting t ps none).FunctionOf f g := by
  obtain ⟨body, entry, params, hbody, hentry, hparams, rfl⟩ := Scheme.function_eq_ok hg
  obtain ⟨hscoped, hscope, -, -⟩ := h.fn_body f hf hsyn
  obtain ⟨within, henters, hspot⟩ := hs.start h (.function h hf hsyn) hentry
  exact ⟨rfl, Scheme.params_eq_ok hparams, entry, within, body, henters,
    hs.plainOf h hspot hscope hscoped hbody, rfl⟩

/-- The way to a free variable leads from the environment of the lambda to the slot. -/
theorem accessOf {c : Nat} {k : Closure} (hk : t.closures[c]? = some k)
    (hcode : CodeAt t ps s cx param k.scope) (hcx : cx.scope = k.scope) {v : VarId}
    (hv : v ∈ k.freeVars) {name : String} {x : CaptureAccess}
    (hx : Scheme.access ⟨t, ps, s⟩ cx k name v = .ok x) :
    x.closure = k.id ∧ x.lambda = name ∧ x.var = v ∧ (u.setting t ps param).IsNamed v x.name ∧
      (u.setting t ps param).IsPlace [] v x.path := by
  obtain ⟨o, ho, hx⟩ := Lower.bind_eq_ok.mp hx
  obtain ⟨place, hplace, hx⟩ := Lower.bind_eq_ok.mp hx
  obtain ⟨n, hn, hx⟩ := Lower.bind_eq_ok.mp hx
  cases hx
  rw [Lower.orInconsistent_eq_ok.mp hplace] at ho
  obtain ⟨y, hy, hyk⟩ := h.free_var c k v hk hv
  have hneeds := h.needs_of_freeVars hk hv
  obtain ⟨p, hp⟩ := hs.plans.linking.placed.covered v ⟨c, hneeds⟩
  obtain ⟨y', z, hy', hhanded, hzy⟩ :=
    hs.plans.handed_of_varPlan h (ScopeTree.Reach.needs h hk) hneeds hp
  cases hy.symm.trans hy'
  -- the slot is in an environment from around the closure
  have hout : ¬ AroundEq t.scopes cx.scope z := fun hkz => by
    rw [hcx] at hkz
    exact Around.irrefl h.preorder
      ((hkz.trans h.preorder hzy).trans_around h.preorder hyk)
  exact ⟨rfl, rfl, rfl, isNamed_of_varName hn,
    hs.isPlace h hcode hp hhanded (fun hkz => absurd hkz hout) ho⟩

/-- Lowered closures are well-formed, and so are the ways to their free variables. -/
theorem lambdaOf {c : Nat} {k : Closure} (hk : t.closures[c]? = some k) {l : Lambda}
    {accesses : List CaptureAccess} (hl : Scheme.lambda ⟨t, ps, s⟩ k = .ok (l, accesses)) :
    (u.setting t ps (some l.env)).LambdaOf k l ∧
      List.Forall₂ (fun v x => x.closure = k.id ∧ x.lambda = l.name ∧ x.var = v ∧
        (u.setting t ps (some l.env)).IsNamed v x.name ∧
        (u.setting t ps (some l.env)).IsPlace [] v x.path) k.freeVars accesses := by
  obtain ⟨b, body, entry, params, hb, hbody, hentry, hparams, -, rfl, hlbody⟩ :=
    Scheme.lambda_eq_ok hl
  obtain ⟨b', e, hb', he, hclosure, henv, haccesses⟩ := Scheme.lambda_rest hl
  cases hb.symm.trans hb'
  rw [env_eq_ok] at he
  have hstart := Vantage.closure h hk (h.closure_id c k hk ▸ hb) he
  obtain ⟨hscoped, -, -⟩ := h.closure_body c k hk
  obtain ⟨within, henters, hspot⟩ := hs.start h hstart hentry
  rw [henv]
  refine ⟨⟨hclosure, Scheme.params_eq_ok hparams, ⟨e, hs.mem_envs.mpr ⟨_, he⟩, henv.symm⟩, entry,
    within, body, henters, hs.bodyOf h hspot hscoped hbody, hlbody⟩, ?_⟩
  have hall := (List.forall₂_and_left _ _).mpr ⟨fun v hv => hv, Lower.mapM_eq_ok.mp haccesses⟩
  exact hall.imp fun v x hx => hs.accessOf h hk hstart.code rfl hx.1 hx.2

/-- The initial values of globals are well-formed. -/
theorem globalOf {g : ClosureEnv.Global} (hg : g ∈ t.globals) {f : Function}
    (hf : t.fns.find? Function.isSynthetic = some f) {x : Lowered.Expr}
    (hx : Scheme.expr ⟨t, ps, s⟩ ⟨f.scope, none⟩ g.init = .ok x) :
    (u.setting t ps none).ExprOf [] g.init x := by
  obtain ⟨f', hf', hscoped, -⟩ := h.global_init g hg
  cases hf.symm.trans hf'
  have hno (p : PlanId) : ¬ ps.From p f.scope := fun hp => by
    obtain ⟨v, y, hy, hys⟩ := hs.plans.linking.placed.own p f.scope hp
    exact h.global_scope f v y hf hy hys
  refine hs.exprOf h g.init ⟨.global h hf, ?_⟩ hscoped hx
  intro p o e hp hfo hof _
  exact absurd (AroundEq.antisymm h.preorder hof hfo ▸ hp) (hno p)

/-! ## The whole unit -/

/-- The initial values of all globals are well-formed. -/
theorem globalsOf : List.Forall₂
    (fun g x => x.name = g.name ∧ (u.setting t ps none).ExprOf [] g.init x.init) t.globals.toList
    u.globals := by
  refine (hs.unit.globals_forall₂ h).imp fun g x ⟨hname, hg, f, hf, hx⟩ => ?_
  exact ⟨hname, hs.globalOf h hg hf hx⟩

/-- All functions are well-formed. -/
theorem functionsOf : List.Forall₂ (u.setting t ps none).FunctionOf
    (t.fns.toList.filter (!·.isSynthetic)) u.functions := by
  refine ((List.forall₂_and_left _ _).mpr ⟨fun f hf => hf, hs.unit.functions⟩).imp fun f g hg => ?_
  obtain ⟨hf, hsyn⟩ := List.mem_filter.mp hg.1
  exact hs.functionOf h (Array.mem_toList_iff.mp hf) (by simpa using hsyn) hg.2

/-- All lambdas are well-formed. -/
theorem lambdasOf : List.Forall₂ (fun k l => (u.setting t ps (some l.env)).LambdaOf k l)
    t.closures.toList u.lambdas := by
  refine ((List.forall₂_and_left _ _).mpr ⟨fun k hk => hk, hs.unit.lambdas⟩).imp fun k l hl => ?_
  obtain ⟨hk, accesses, hl⟩ := hl
  obtain ⟨c, hc⟩ := Array.mem_iff_getElem?.mp (Array.mem_toList_iff.mp hk)
  exact (hs.lambdaOf h hc hl).1

omit h in
/-- The name and the scope of an environment of the unit belong to it alone. -/
theorem isHead {e : EnvType} (he : e ∈ u.envs) {i : ScopeId} (hi : ps.From e.plan i) :
    (u.setting t ps param).IsHead e.name i where
  exists_env := ⟨e, he, rfl, hi⟩
  iff f hf j hj := by
    constructor
    · intro heq
      rw [hs.env_inj hf he heq] at hj
      exact hj.unique hi
    · rintro rfl
      have hplan := hs.plans.linking.placed.from_inj hj hi
      have hfe := hs.getElem?_plan hf
      rw [hplan] at hfe
      rw [Option.some.inj (hfe.symm.trans (hs.getElem?_plan he))]

/-- The environment of a scope is entered once, if scopes are opened once. -/
theorem count_entries (hopens : t.OpensOnce)
    (hsyn : ∀ f ∈ t.fns, f.isSynthetic = true → f.body.opens = [] ∧ ∀ p, ¬ ps.From p f.scope)
    {e : EnvType} (he : e ∈ u.envs) {i : ScopeId} (hi : ps.From e.plan i) :
    u.entries.count e.name = 1 := by
  have hfns : ((t.fns.toList.filter (!·.isSynthetic)).flatMap Function.opens).count i =
      (t.fns.toList.flatMap Function.opens).count i := by
    refine Lowered.count_flatMap_filter fun f hf hfsyn => ?_
    obtain ⟨hbody, hno⟩ := hsyn f (Array.mem_toList_iff.mp hf) (by simpa using hfsyn)
    have hne : f.scope ≠ i := fun heq => hno e.plan (heq ▸ hi)
    rw [Function.opens, hbody]
    simp [hne]
  have hfunctions := Lowered.count_flatMap (g := (·.body.entries)) (n := e.name) (i := i)
    (hs.functionsOf h) fun f g hg => (hs.isHead he hi).count_function hg
  have hglobals := Lowered.count_flatMap (f := (·.init.opens)) (g := (·.init.entries))
    (n := e.name) (i := i) (hs.globalsOf h) fun g x hx => (hs.isHead he hi).count_expr hx.2
  have hlambdas := Lowered.count_flatMap (g := (·.body.entries)) (n := e.name) (i := i)
    (hs.lambdasOf h) fun k l hl => (hs.isHead he hi).count_lambda hl
  obtain ⟨sc, hsc⟩ := hs.plans.linking.placed.exists_scope hi
  have hlt : i < t.scopes.size := (Array.getElem?_eq_some_iff.mp hsc).1
  -- Every scope is opened once in the tree, and each opening of this one is an entry.
  have hcount := hopens.count_eq i
  rw [List.count_append, List.count_append, ← hfns, ← hfunctions, ← hglobals, ← hlambdas,
    List.count_eq_one_of_mem List.nodup_range (List.mem_range.mpr hlt)] at hcount
  rw [LoweredUnit.entries, List.count_append, List.count_append]
  exact hcount

/-- The ways to the free variables of each closure are well-formed. -/
theorem accessesOf : ∃ ls : List (Lambda × List CaptureAccess), u.lambdas = ls.map Prod.fst ∧
    u.captures = ls.flatMap Prod.snd ∧
    List.Forall₂ (fun k l => List.Forall₂ (fun v x => x.closure = k.id ∧ x.lambda = l.1.name ∧
      x.var = v ∧ (u.setting t ps (some l.1.env)).IsNamed v x.name ∧
      (u.setting t ps (some l.1.env)).IsPlace [] v x.path) k.freeVars l.2 ∧ l.1.closure = k.id)
      t.closures.toList ls := by
  obtain ⟨ls, hls, hlambdas, hcaptures⟩ := hs.unit.captures
  refine ⟨ls, hlambdas, hcaptures, ?_⟩
  refine ((List.forall₂_and_left _ _).mpr ⟨fun k hk => hk, hls⟩).imp fun k l hl => ?_
  obtain ⟨c, hc⟩ := Array.mem_iff_getElem?.mp (Array.mem_toList_iff.mp hl.1)
  have hlambda := hs.lambdaOf h hc hl.2
  exact ⟨hlambda.2, hlambda.1.closure⟩

/-- There is a capture for every free variable of every closure, in their order. -/
theorem captures_eq : u.captures.map (fun x => (x.closure, x.var)) =
    t.closures.toList.flatMap fun k => k.freeVars.map (k.id, ·) := by
  obtain ⟨ls, -, hcaptures, hall⟩ := hs.accessesOf h
  rw [hcaptures, List.map_flatMap]
  generalize t.closures.toList = ks at hall
  clear hcaptures
  induction hall with
  | nil => rfl
  | @cons k l ks ls hkl _ ih =>
    rw [List.flatMap_cons, List.flatMap_cons, ih]
    refine congrArg (· ++ _) ?_
    obtain ⟨haccesses, -⟩ := hkl
    generalize k.freeVars = vs at haccesses
    generalize l.2 = accesses at haccesses
    induction haccesses with
    | nil => rfl
    | cons hx _ ih =>
      obtain ⟨hclosure, -, hvar, -⟩ := hx
      rw [List.map_cons, List.map_cons, ih, hclosure, hvar]

/-- Each capture leads from the lambda of the closure to the slot of the variable. -/
theorem accessOf_mem : ∀ x ∈ u.captures, ∃ l ∈ u.lambdas, l.closure = x.closure ∧
    l.name = x.lambda ∧ (u.setting t ps (some l.env)).IsNamed x.var x.name ∧
    (u.setting t ps (some l.env)).IsPlace [] x.var x.path := by
  obtain ⟨ls, hlambdas, hcaptures, hall⟩ := hs.accessesOf h
  intro x hx
  rw [hcaptures] at hx
  obtain ⟨l, hl, hx⟩ := List.mem_flatMap.mp hx
  obtain ⟨k, -, haccesses, hclosure⟩ := Lower.exists_left_of_forall₂ hall hl
  obtain ⟨v, -, hxk, hxl, rfl, hname, hplace⟩ := Lower.exists_left_of_forall₂ haccesses hx
  exact ⟨l.1, hlambdas ▸ List.mem_map_of_mem hl, hclosure.trans hxk.symm, hxl.symm, hname, hplace⟩

omit hs in
/-- No free variable of a closure is there twice. -/
theorem nodup_captures (hfree : ∀ k ∈ t.closures, k.freeVars.Nodup) :
    (t.closures.toList.flatMap fun k => k.freeVars.map (k.id, ·)).Nodup := by
  rw [List.nodup_flatMap]
  refine ⟨fun k hk => (hfree k (Array.mem_toList_iff.mp hk)).map fun v w hvw => (Prod.mk.inj hvw).2,
    ?_⟩
  rw [List.pairwise_iff_getElem]
  intro i j hi hj hij x hxi hxj
  obtain ⟨v, -, rfl⟩ := List.mem_map.mp hxi
  obtain ⟨w, -, heq⟩ := List.mem_map.mp hxj
  have hid (n : Nat) (hn : n < t.closures.toList.length) : t.closures.toList[n].id = n := by
    refine h.closure_id n _ ?_
    rw [← Array.getElem?_toList]
    exact List.getElem?_eq_getElem hn
  have := (Prod.mk.inj heq).1
  rw [hid i hi, hid j hj] at this
  exact absurd this (Nat.ne_of_gt hij)

end Stages

/-- Whatever a bound module is lowered to is well-formed, whatever the options and the baseline. -/
theorem lowerUnit_formed {unit : String} {m : Syntax.Module} {t : ScopeTree}
    (ht : bindModule m unit = .ok t) {options : LowerOptions} {baseline : Option Baseline}
    {u : LoweredUnit} (hu : lowerUnit t options baseline = .ok u) :
    ∃ a ps, Captures.analyze t = .ok a ∧ planEnvironments t a options = .ok ps ∧
      u.Formed t ps := by
  obtain ⟨holds, h⟩ := wellBound_of_bindModule ht
  obtain ⟨a, ps, s, xs, hs⟩ := exists_stages h hu
  obtain ⟨hopens, hsyn, hfree⟩ := Binding.opensOnce_of_bindModule ht
  refine ⟨a, ps, hs.analyzed, hs.planned, hs.nodup_names, hs.functionsOf h, hs.lambdasOf h,
    hs.globalsOf h, fun e he i hi => ?_, hs.captures_eq h,
    hs.captures_eq h ▸ Stages.nodup_captures h hfree,
    hs.accessOf_mem h⟩
  refine hs.count_entries h hopens (fun f hf hfsyn => ⟨hsyn f hf hfsyn, fun p hp => ?_⟩) he hi
  obtain ⟨v, x, hx, hxs⟩ := hs.plans.linking.placed.own p f.scope hp
  exact scope_ne_of_synthetic ht hf hfsyn hx hxs

/-- A source with a closure is lowered, and what it is lowered to is well-formed. -/
theorem lowerUnit_formed_captureSource : ∃ t u a ps,
    bindModule Syntax.captureSource "u" = .ok t ∧ lowerUnit t ⟨.contained, true⟩ none = .ok u ∧
      Captures.analyze t = .ok a ∧ planEnvironments t a ⟨.contained, true⟩ = .ok ps ∧
      u.Formed t ps := by
  have hsome : ((bindModule Syntax.captureSource "u").toOption.bind fun t =>
      (lowerUnit t ⟨.contained, true⟩ none).toOption).isSome = true := by
    decide +kernel
  obtain ⟨u, hu⟩ := Option.isSome_iff_exists.mp hsome
  obtain ⟨t, ht, hu⟩ := Option.bind_eq_some_iff.mp hu
  rw [Lower.toOption_eq_some] at ht hu
  obtain ⟨a, ps, ha, hps, hformed⟩ := lowerUnit_formed ht hu
  exact ⟨t, u, a, ps, ht, hu, ha, hps, hformed⟩

end ClosureEnv
