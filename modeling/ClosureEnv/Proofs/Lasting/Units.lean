import ClosureEnv.Proofs.Binding.Source
import ClosureEnv.Proofs.Lasting.Calls

/-!
# Runs of units

A lowered unit runs as its tree does beside lasting environments, with as much fuel
(`runUnit_agrees`). Whatever error a run ends in is one of the program then, and none of the
evaluator's own (`runUnit_not_internal`).
-/

namespace ClosureEnv.Run.Lasting

open Lowered (Scheme)

variable {holds : VarId → ClosureId → Prop} {r : Scheme} {u : LoweredUnit} {m : Machine} {s : Store}

/-- Before anything has run there is nothing to compare. -/
theorem World.start (holds : VarId → ClosureId → Prop) (r : Scheme) :
    World holds r .start .start where
  size := rfl
  objects _ _ hi := by cases hi
  slots _ _ _ _ hi := by cases hi
  globals _ := .none
  global_free _ _ hx := by cases hx
  singletons _ _ _ := rfl
  depth := rfl

/-! ## Globals -/

section

variable (hr : r.Sound holds)

include hr

/-- Nothing is in sight where the initial values of the globals are. -/
theorem not_from_globals {f : Function} (hf : r.tree.fns.find? Function.isSynthetic = some f)
    {p : PlanId} {o : ScopeId} (ho : AroundEq r.tree.scopes o f.scope) : ¬ r.plans.From p o := by
  intro hp
  obtain rfl := ho.resolve_right
    (hr.bound.not_around_function (Array.mem_of_find?_eq_some hf) o)
  obtain ⟨v, x, hx, hxs⟩ := hr.plans.linking.placed.own p f.scope hp
  exact hr.bound.global_scope f v x hf hx hxs

/-- The initial value of a global is computed alike. -/
theorem agree_init (hu : Scheme.UnitOf r u) (fuel : Nat) {g : Global} (hg : g ∈ r.tree.globals)
    {f : Function} (hf : r.tree.fns.find? Function.isSynthetic = some f) {x : Lowered.Expr}
    (hx : r.expr ⟨f.scope, none⟩ g.init = .ok x) (hw : World holds r m s) :
    Agree (Called holds r m s) (fun _ _ _ _ => False)
      (Run.inFrame (.start none []) (Exec.returning ((Run.context u fuel).expr x)) m)
      (inFrame [] [] ((context r.tree r.plans fuel).expr g.init) s) := by
  obtain ⟨f', hf', hscoped, hesc, -⟩ := hr.bound.global_init g hg
  cases hf.symm.trans hf'
  -- No environment comes from around the globals, so that there is nothing to be in sight.
  have hno {p : PlanId} {o : ScopeId} (ho : AroundEq r.tree.scopes o f.scope) :
      ¬ r.plans.From p o := not_from_globals hr hf ho
  have hstart : Vantage r.tree r.plans r.synthesis ⟨f.scope, none⟩ none f.scope fun _ => False :=
    .global hr.bound hf
  have hsite : Site r ⟨f.scope, none⟩ f.scope fun _ => False :=
    ⟨⟨hstart.code.body, fun d hd => by cases hd⟩, hstart.reach⟩
  let m₁ : Machine := { m with frame := .start none [], callers := m.frame :: m.callers }
  let s₁ : Store := { s with sight := [], locals := [] }
  have hpoint : Point holds r ⟨f.scope, none⟩ f.scope (fun _ => False) m₁ s₁ m₁ s₁ :=
    .start (hw.congr rfl rfl rfl rfl rfl rfl hw.depth)
      { covers := fun p o hp ho => absurd hp (hno ho)
        locals := fun _ => .none
        entered := fun p o hp ho => absurd hp (hno ho)
        param := fun d hd => by cases hd
        outer := fun p o _ hp ho => absurd hp (hno (.inr ho)) }
      ⟨fun _ _ hv => hv.elim, fun _ hv => hv.elim⟩
  refine agree_inFrame ?_
  exact (expr_agrees (alongside hr hu fuel) g.init hsite hscoped hx hpoint).imp
    (fun _ _ _ _ hends => ⟨hends.point.world, hends.point.grows, hends.same, hends.free hesc⟩)
    fun _ _ _ _ hret => ⟨hret.world, hret.grows, hret.same, hret.free⟩

/-- The globals get their initial values alike. -/
theorem agree_initGlobals (hu : Scheme.UnitOf r u) (fuel : Nat) (hw : World holds r m s) :
    Agree (fun _ m _ s => World holds r m s) (fun _ _ _ _ => False) (Run.initGlobals u fuel m)
      (initGlobals r.tree r.plans fuel s) := by
  unfold Run.initGlobals initGlobals
  have hall := hu.globals_forall₂ hr.bound
  generalize r.tree.globals.toList = gs at hall
  generalize u.globals = xs at hall
  induction hall generalizing m s with
  | nil => exact .ok hw
  | @cons g x gs xs hgx _ ih =>
    obtain ⟨hname, hg, f, hf, hx⟩ := hgx
    rw [List.forM, List.forM, hname]
    refine Agree.bind ((agree_init hr hu fuel hg hf hx hw).bind fun v m₁ w s₁ hcalled => ?_)
      fun _ m₁ _ s₁ hw₁ => ih hw₁
    exact .ok (hcalled.world.writeGlobal g.name hcalled.same hcalled.free)

/-! ## Units -/

/-- A lowered unit and its tree run alike, whatever has been left on the heap before. -/
theorem runUnit_agrees_of_world (hu : Scheme.UnitOf r u) (fuel : Nat) (hw : World holds r m s) :
    Agree (fun x m y s => World holds r m s ∧ Same r x y) (fun _ _ _ _ => False)
      (runUnit u fuel m) (runTree r.tree r.plans fuel s) := by
  unfold runUnit runTree
  refine (agree_initGlobals hr hu fuel hw).bind fun _ m _ s hw => ?_
  rcases hu.function? "main" with ⟨hnone, hnone'⟩ | ⟨f, g, hf, hg, hfg⟩
  · have hmain : (context r.tree r.plans fuel).function? "main" = none := hnone
    rw [hnone', hmain, hu.unit]
    exact .failed _ _ _ rfl
  · have hmain : (context r.tree r.plans fuel).function? "main" = some f := hf
    rw [hg, hmain]
    have hparams : g.params.isEmpty = f.params.isEmpty := by
      obtain ⟨_, _, ps, -, -, hps, rfl⟩ := Scheme.function_eq_ok hfg
      rw [← Scheme.params_eq_ok hps, List.isEmpty_map]
    obtain ⟨hmem, hsyn⟩ := ScopeTree.source_of_find? hf
    dsimp only
    rw [hparams]
    split
    · exact (agree_function (alongside hr hu fuel) hmem hsyn hfg hw .nil).imp
        (fun _ _ _ _ hcalled => ⟨hcalled.world, hcalled.same⟩) fun _ _ _ _ => id
    · exact .failed _ _ _ rfl

/-- A lowered unit and its tree run alike. -/
theorem runUnit_agrees (hu : Scheme.UnitOf r u) (fuel : Nat) :
    Agree (fun x m y s => World holds r m s ∧ Same r x y) (fun _ _ _ _ => False)
      (runUnit u fuel .start) (runTree r.tree r.plans fuel .start) :=
  runUnit_agrees_of_world hr hu fuel (.start holds r)

end

end Lasting

/-- No error of a run is one of the evaluator's own, whatever the options and the baseline that the
source was lowered with, and however much fuel there is. -/
theorem runUnit_not_internal {source unit : String} {m : Syntax.Module} {t : ScopeTree}
    (hm : Syntax.parse source = .ok m) (ht : bindModule m unit = .ok t) {options : LowerOptions}
    {baseline : Option Baseline} {u : LoweredUnit} (hu : lowerUnit t options baseline = .ok u)
    (fuel : Nat) {e : RunError} (he : e.isInternal = true) :
    (runUnit u fuel .start).1 ≠ .error (.failed e) := by
  obtain ⟨⟨holds, hw⟩, hn⟩ := sound_of_source hm ht
  obtain ⟨a, ps, s, xs, hs⟩ := exists_stages hw hu
  have hagree := Lasting.runUnit_agrees (hs.sound hw hn) hs.unit fuel
  intro hrun
  generalize runUnit u fuel .start = p at hagree hrun
  generalize Lasting.runTree _ _ _ _ = p' at hagree
  cases hagree with
  | failed e' _ _ he' =>
    cases hrun
    rw [he] at he'
    cases he'
  | ok _ | returned _ | outOfFuel _ _ => cases hrun

/-- The text of a source with a closure is parsed, bound and lowered, and the unit runs. -/
theorem exists_lowered_captureText : ∃ m t u, Syntax.parse Syntax.captureText = .ok m ∧
    bindModule m "u" = .ok t ∧ lowerUnit t ⟨.never, false⟩ none = .ok u ∧
      Outcome.of (runUnit u 8 .start).1 = .value "true" := by
  have hvalue : ((Syntax.parse Syntax.captureText).toOption.bind fun m =>
      (bindModule m "u").toOption.bind fun t =>
        (lowerUnit t ⟨.never, false⟩ none).toOption.map fun u =>
          Outcome.of (runUnit u 8 .start).1) = some (.value "true") := by
    rw [Syntax.parse_captureText]
    decide +kernel
  obtain ⟨m, hm, hvalue⟩ := Option.bind_eq_some_iff.mp hvalue
  obtain ⟨t, ht, hvalue⟩ := Option.bind_eq_some_iff.mp hvalue
  obtain ⟨u, hu, hvalue⟩ := Option.map_eq_some_iff.mp hvalue
  rw [Lower.toOption_eq_some] at hm ht hu
  exact ⟨m, t, u, hm, ht, hu, hvalue⟩

/-- The source with a closure that borrows an environment never finds its scope exited. -/
theorem runUnit_not_internal_captureText : ∃ m t u, Syntax.parse Syntax.captureText = .ok m ∧
    bindModule m "u" = .ok t ∧ lowerUnit t ⟨.never, false⟩ none = .ok u ∧
      RunError.scopeExited.isInternal = true ∧
      (runUnit u 8 .start).1 ≠ .error (.failed .scopeExited) := by
  obtain ⟨m, t, u, hm, ht, hu, -⟩ := exists_lowered_captureText
  exact ⟨m, t, u, hm, ht, hu, rfl, runUnit_not_internal hm ht hu 8 rfl⟩

end ClosureEnv.Run
