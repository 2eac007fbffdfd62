import ClosureEnv.Proofs.Cells.Calls
import ClosureEnv.Proofs.Lasting.Units
import ClosureEnv.Proofs.Layout.Chain

/-!
# Lowering preserves meaning

A tree runs beside lasting environments as it does directly, with as much fuel, if no scope that is
entered in the test of a loop has lost its environment to another (`runTree_agrees`). So does a unit
that is lowered from it without merging, whatever layouts it took over from earlier generations:
both runs end in one value, as far as it is printed, in one error, or neither is over yet
(`runUnit_direct`). Merging makes a difference for tests of loops only (`runUnit_contained`).
-/

namespace ClosureEnv

/-- Unless environments are merged, captured variables are in the environments of their own
scopes. -/
theorem Stages.unmerged {t : ScopeTree} {holds : VarId → ClosureId → Prop} (h : t.WellBound holds)
    {options : LowerOptions} (hmerge : options.merge = .never) {baseline : Option Baseline}
    {u : LoweredUnit} {a : Captures} {ps : PlanTable} {s : Synthesis}
    {xs : List Synthesis.Settlement} (hs : Stages t options baseline u a ps s xs) :
    ∀ v, Run.Cells.Own ⟨t, ps, s⟩ v := by
  obtain ⟨ps', hps', -, hown⟩ := planEnvironments_spec h hs.captures options
  cases hps'.symm.trans hs.planned
  exact hown hmerge

namespace Run

namespace Cells

open Lowered (Scheme)

variable {holds : VarId → ClosureId → Prop} {r : Scheme} {X : Twin} {d : Direct.Store}
  {s : Lasting.Store}

/-- Before anything has run there is nothing to compare. -/
theorem World.start (t : ScopeTree) (ps : PlanTable) :
    World t ps ⟨fun _ => none, .start, .start⟩ where
  cells _ _ _ hc := by cases hc
  apart _ _ _ hc := by cases hc
  globals _ := .none
  depth := rfl

section

variable (hr : r.Sound holds) (htests : ∀ v, r.tree.Tested v → Own r v)

include hr htests

/-- A global gets its initial value alike. -/
theorem agree_initGlobal (fuel : Nat) {g : Global} (hg : g ∈ r.tree.globals)
    (hw : World r.tree r.plans X) :
    Agree (fun _ d _ s => ∃ μ, World r.tree r.plans ⟨μ, d, s⟩) (fun _ _ _ _ => False)
      ((do
        let x ← Direct.inBody [] [] [] ((Direct.context r.tree fuel).expr g.init)
        Direct.writeGlobal g.name x) X.direct)
      ((do
        let y ← Lasting.inFrame [] [] ((Lasting.context r.tree r.plans fuel).expr g.init)
        Lasting.writeGlobal g.name y) X.lasting) := by
  obtain ⟨f, hf, hscoped, -, hn⟩ := hr.bound.global_init g hg
  have hnone {p : PlanId} {o : ScopeId} (ho : Within r f.scope o) : ¬ r.plans.From p o :=
    Lasting.not_from_globals hr hf ho
  have hpoint : Point r (fun _ => False) X.direct.cells.size (X.frame [] [] []) :=
    ⟨hw.frame _ _ _, fun _ _ hv => hv.elim, fun _ hv => hv.elim, fun _ _ _ hv => hv.elim,
      Nat.le_refl _⟩
  have hinit := expr_agrees (alongside hr htests fuel) g.init (fun _ hv => hv.elim) hscoped hn
    (fun v hv => htests v (.inr (.inr ⟨g, hg, hv⟩))) hpoint
    fun _ _ _ _ _ hpo hin => absurd hpo (hnone hin)
  -- there is no environment around the globals whose slots could be filled
  have hleaves {x d y s} (h : Leaves r (Within r f.scope) X.direct.cells.size g.init.binds
      (X.frame [] [] []) x d y s) : Leaves r (fun _ => False) X.direct.cells.size [] X x d y s := by
    obtain ⟨μ, hworld, hlater, hsame⟩ := h
    have hlater : Later r (fun _ => False) X.direct.cells.size [] (X.frame [] [] []) ⟨μ, d, s⟩ :=
      hlater.imp fun _ _ _ ⟨_, _, _, hpo, hin, _⟩ => absurd hpo (hnone hin)
    exact ⟨μ, hworld, hlater.since rfl rfl rfl, hsame⟩
  have hvalue : Agree (Called r X) (fun _ _ _ _ => False)
      (Direct.inBody [] [] [] ((Direct.context r.tree fuel).expr g.init) X.direct) _ :=
    agree_inFrame (hinit.imp (fun _ _ _ _ h => hleaves h.leaves) fun _ _ _ _ => hleaves)
  refine hvalue.bind fun x d y s hcalled => ?_
  obtain ⟨μ, hworld, -, hsame⟩ := hcalled.leaves
  exact .ok ⟨μ, hworld.writeGlobal g.name hsame⟩

/-- The globals get their initial values alike. -/
theorem agree_initGlobals (fuel : Nat) (hw : World r.tree r.plans X) :
    Agree (fun _ d _ s => ∃ μ, World r.tree r.plans ⟨μ, d, s⟩) (fun _ _ _ _ => False)
      (Direct.initGlobals r.tree fuel X.direct)
      (Lasting.initGlobals r.tree r.plans fuel X.lasting) := by
  unfold Direct.initGlobals Lasting.initGlobals
  have hmem : ∀ g ∈ r.tree.globals.toList, g ∈ r.tree.globals := fun g => Array.mem_toList_iff.mp
  generalize r.tree.globals.toList = gs at hmem
  induction gs generalizing X with
  | nil => exact .ok ⟨X.homes, hw⟩
  | cons g gs ih =>
    rw [List.forM, List.forM]
    refine (agree_initGlobal hr htests fuel (hmem g List.mem_cons_self) hw).bind
      fun _ d _ s hw => ?_
    obtain ⟨μ, hw⟩ := hw
    exact ih hw fun g hg => hmem g (List.mem_cons_of_mem _ hg)

/-- A tree runs directly as it does beside lasting environments. -/
theorem runTree_agrees (fuel : Nat) :
    Agree (fun x _ y _ => ∃ μ, Same r.tree r.plans μ x y) (fun _ _ _ _ => False)
      (Direct.runTree r.tree fuel .start) (Lasting.runTree r.tree r.plans fuel .start) := by
  unfold Direct.runTree Lasting.runTree
  refine (agree_initGlobals hr htests fuel (.start r.tree r.plans)).bind fun _ d _ s hw => ?_
  obtain ⟨μ, hw⟩ := hw
  cases hfind : r.tree.fns.find? fun f => f.name == "main" && !f.isSynthetic with
  | none =>
    have hdirect : (Direct.context r.tree fuel).function? "main" = none := hfind
    have hlasting : (Lasting.context r.tree r.plans fuel).function? "main" = none := hfind
    rw [hdirect, hlasting]
    exact .failed _ _ _ rfl
  | some f =>
    have hdirect : (Direct.context r.tree fuel).function? "main" = some f := hfind
    have hlasting : (Lasting.context r.tree r.plans fuel).function? "main" = some f := hfind
    obtain ⟨hmem, hsyn⟩ := ScopeTree.source_of_find? hfind
    rw [hdirect, hlasting]
    dsimp only
    split
    · refine (agree_function (alongside hr htests fuel) hmem hsyn hw .nil).imp
        (fun _ _ _ _ hcalled => ?_) fun _ _ _ _ => id
      obtain ⟨μ', -, -, hsame⟩ := hcalled.leaves
      exact ⟨μ', hsame⟩
    · exact .failed _ _ _ rfl

end

end Cells

/-- A lowered unit runs as its tree does directly if no scope that is entered in the test of a loop
has lost its environment to another. -/
theorem outcome_eq_direct {t : ScopeTree} (ht : t.Sound) {options : LowerOptions}
    {baseline : Option Baseline} {u : LoweredUnit} {a : Captures} {ps : PlanTable} {s : Synthesis}
    {xs : List Synthesis.Settlement} (hs : Stages t options baseline u a ps s xs)
    (htests : ∀ v, t.Tested v → Cells.Own ⟨t, ps, s⟩ v) (fuel : Nat) :
    Outcome.of (runUnit u fuel .start).1 = Outcome.of (Direct.runTree t fuel .start).1 := by
  obtain ⟨⟨holds, hw⟩, hn⟩ := ht
  have hr := hs.sound hw hn
  have hlowered := (Lasting.runUnit_agrees hr hs.unit fuel).imp (fun _ _ _ _ h => h.2)
    fun _ _ _ _ => id
  have hdirect := (Cells.runTree_agrees hr htests fuel).imp (fun x _ y _ ⟨μ, h⟩ => h.loose)
    fun _ _ _ _ => id
  exact hlowered.outcome_eq.trans hdirect.outcome_eq.symm

/-- Lowering preserves meaning. Unless environments are merged, a unit that is lowered from a source
runs as the source does directly, whatever it took over from an earlier generation and however much
fuel there is: in particular one of the runs goes on for ever if the other does. -/
theorem runUnit_direct {source unit : String} {m : Syntax.Module} {t : ScopeTree}
    (hm : Syntax.parse source = .ok m) (ht : bindModule m unit = .ok t) {options : LowerOptions}
    (hmerge : options.merge = .never) {baseline : Option Baseline} {u : LoweredUnit}
    (hu : lowerUnit t options baseline = .ok u) (fuel : Nat) :
    Outcome.of (runUnit u fuel .start).1 = Outcome.of (Direct.runTree t fuel .start).1 := by
  have hsound := sound_of_source hm ht
  obtain ⟨holds, hw⟩ := hsound.wellBound
  obtain ⟨a, ps, s, xs, hs⟩ := exists_stages hw hu
  exact outcome_eq_direct hsound hs (fun v _ => hs.unmerged hw hmerge v) fuel

/-- The source with a closure runs as it does directly, and both runs are over. -/
theorem runUnit_direct_captureText : ∃ m t u, Syntax.parse Syntax.captureText = .ok m ∧
    bindModule m "u" = .ok t ∧ (⟨.never, false⟩ : LowerOptions).merge = .never ∧
      lowerUnit t ⟨.never, false⟩ none = .ok u ∧
      Outcome.of (runUnit u 8 .start).1 = Outcome.of (Direct.runTree t 8 .start).1 ∧
      Outcome.of (runUnit u 8 .start).1 = .value "true" := by
  obtain ⟨m, t, u, hm, ht, hu, hvalue⟩ := exists_lowered_captureText
  exact ⟨m, t, u, hm, ht, rfl, hu, runUnit_direct hm ht rfl hu 8, hvalue⟩

/-- The merge policy does not change what a source does in whose loops no test declares a variable
that a closure needs: under both policies it is lowered, and the two units run alike. -/
theorem runUnit_contained {source unit : String} {m : Syntax.Module} {t : ScopeTree}
    (hm : Syntax.parse source = .ok m) (ht : bindModule m unit = .ok t)
    (htests : ∀ v, t.Tested v → ∀ c, ¬ t.Needs c v) (incremental : Bool) :
    ∃ u u', lowerUnit t ⟨.contained, incremental⟩ none = .ok u ∧
      lowerUnit t ⟨.never, incremental⟩ none = .ok u' ∧ ∀ fuel,
        Outcome.of (runUnit u fuel .start).1 = Outcome.of (runUnit u' fuel .start).1 := by
  have hsound := sound_of_source hm ht
  have hown {a : Captures} {ps : PlanTable} {s : Synthesis} {options : LowerOptions}
      {u : LoweredUnit} {xs : List Synthesis.Settlement}
      (hs : Stages t options none u a ps s xs) (v : VarId) (hv : t.Tested v) :
      Cells.Own ⟨t, ps, s⟩ v := by
    intro p x hp hx
    obtain ⟨y, hy, hslot⟩ := hs.plans.linking.placed.var_plan v p hp
    obtain ⟨⟨c, hneeds⟩, -⟩ := hs.plans.linking.placed.slot p y v hy hslot
    exact absurd hneeds (htests v hv c)
  obtain ⟨u, hu, a, ps, s, xs, hs⟩ :=
    hsound.exists_stages ⟨.contained, incremental⟩ none nofun .none
  obtain ⟨u', hu', a', ps', s', xs', hs'⟩ :=
    hsound.exists_stages ⟨.never, incremental⟩ none nofun .none
  exact ⟨u, u', hu, hu', fun fuel => (outcome_eq_direct hsound hs (hown hs) fuel).trans
    (outcome_eq_direct hsound hs' (hown hs') fuel).symm⟩

/-- The source with a closure has no loop. -/
theorem runUnit_contained_captureText : ∃ m t, Syntax.parse Syntax.captureText = .ok m ∧
    bindModule m "u" = .ok t ∧ (∀ v, t.Tested v → ∀ c, ¬ t.Needs c v) ∧
      ∃ u u', lowerUnit t ⟨.contained, true⟩ none = .ok u ∧
        lowerUnit t ⟨.never, true⟩ none = .ok u' ∧ ∀ fuel,
          Outcome.of (runUnit u fuel .start).1 = Outcome.of (runUnit u' fuel .start).1 := by
  have hnone : ((Syntax.parse Syntax.captureText).toOption.bind fun m =>
      (bindModule m "u").toOption.map fun t =>
        t.fns.all (·.body.tested.isEmpty) && t.closures.all (·.body.tested.isEmpty)
          && t.globals.all (·.init.tested.isEmpty)) = some true := by
    rw [Syntax.parse_captureText]
    decide +kernel
  obtain ⟨m, hm, hnone⟩ := Option.bind_eq_some_iff.mp hnone
  obtain ⟨t, ht, hnone⟩ := Option.map_eq_some_iff.mp hnone
  rw [Lower.toOption_eq_some] at hm ht
  simp only [Bool.and_eq_true, Array.all_eq_true_iff_forall_mem, List.isEmpty_iff] at hnone
  have htests (v : VarId) (hv : t.Tested v) (c : ClosureId) : ¬ t.Needs c v := by
    rcases hv with ⟨f, hf, hv⟩ | ⟨k, hk, hv⟩ | ⟨g, hg, hv⟩
    · rw [hnone.1.1 f hf] at hv
      cases hv
    · rw [hnone.1.2 k hk] at hv
      cases hv
    · rw [hnone.2 g hg] at hv
      cases hv
  exact ⟨m, t, hm, ht, htests, runUnit_contained hm ht htests true⟩

end Run

end ClosureEnv
