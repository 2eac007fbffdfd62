import ClosureEnv.Proofs.Layout.History
import ClosureEnv.Proofs.Lowered.Total

/-!
# Chains of generations

The modules that a unit consists of over time can be lowered one after another, each with what the
one before leaves, as long as there are numbers for the generations (`lowerChain_ok`). All names of
a unit are different, and a name that is minted has not been that of an environment before, live or
not: names tell the generation that minted them, but for that of the shared layout, which is never
given up.
-/

namespace ClosureEnv

/-! ## The names of a unit -/

/-- The name that a record says is new. -/
def Transition.minted? : Transition → Option String
  | created name | superseded _ name _ => some name
  | unchanged _ | extended .. | carried _ | retired _ => none

namespace LoweredUnit

variable (u : LoweredUnit)

/-- The names of the environments of a unit, of the layouts that it carries on and of those in its
history. -/
def envNames : List String :=
  u.envs.map EnvType.name ++ u.carried.map (·.2.name) ++ u.history.map (·.2.name)

/-- All names of a unit. -/
def names : List String :=
  u.functions.map Lowered.Function.name ++ u.globals.map Lowered.Global.name
    ++ u.lambdas.map Lowered.Lambda.name ++ u.envNames

/-- The names that are new in a unit, as its records say. -/
def minted : List String :=
  u.report.transitions.filterMap (·.2.minted?)

/-- The names of environments are those of what is live and of the history. -/
theorem mem_envNames {n : String} : n ∈ u.envNames ↔
    (∃ e ∈ u.live, e.2.name = n) ∨ ∃ e ∈ u.history, e.2.name = n := by
  rw [envNames, ← map_live_name, List.mem_append, List.mem_map, List.mem_map]

end LoweredUnit

open Synthesis Lowered.Scheme

namespace Stages

variable {t : ScopeTree} {holds : VarId → ClosureId → Prop} {options : LowerOptions}
  {baseline : Option Baseline} {u : LoweredUnit} {a : Captures} {ps : PlanTable} {s : Synthesis}
  {xs : List Settlement}

variable (h : Stages t options baseline u a ps s xs)

include h

/-- The functions and the globals of a unit have names of those of the tree, in the same order. -/
theorem sublist_sourceNames :
    (u.functions.map Lowered.Function.name ++ u.globals.map Lowered.Global.name).Sublist
      (t.fns.toList.map Function.name ++ t.globals.toList.map Global.name) := by
  have hfunctions : (t.fns.toList.filter (!·.isSynthetic)).map Function.name =
      u.functions.map Lowered.Function.name :=
    Lower.map_eq_of_forall₂ h.unit.functions fun f _ g hg => by
      obtain ⟨-, -, -, -, -, -, rfl⟩ := function_eq_ok hg
      rfl
  have hglobals :
      (u.globals.map Lowered.Global.name).Sublist (t.globals.toList.map Global.name) := by
    have hglobals := h.unit.globals
    unfold Lowered.Scheme.globals at hglobals
    split at hglobals
    · rw [← Lower.pure_eq_ok.mp hglobals]
      exact List.nil_sublist _
    · have heq : t.globals.toList.map Global.name = u.globals.map Lowered.Global.name :=
        Lower.map_eq_of_forall₂ (Lower.mapM_eq_ok.mp hglobals) fun g _ x hx => by
          obtain ⟨y, -, hx⟩ := Lower.bind_eq_ok.mp hx
          cases hx
          rfl
      rw [heq]
  rw [← hfunctions]
  exact (List.filter_sublist.map _).append hglobals

variable (hw : t.WellBound holds) (hn : t.WellNamed)

include hw hn

/-- The lambdas of a unit have the names that were made for them. -/
theorem map_lambda_name :
    u.lambdas.map Lowered.Lambda.name = t.closures.toList.map (lambdaOf t) := by
  have hsound : Sound holds ⟨t, ps, s⟩ := h.sound hw hn
  refine (Lower.map_eq_of_forall₂ h.unit.lambdas fun k hk l hl => ?_).symm
  obtain ⟨accesses, hl⟩ := hl
  exact (hsound.name_of_lambda (Array.mem_toList_iff.mp hk) hl).symm

variable (hb : Continuable baseline)

include hb

/-- No two names of a unit are the same. -/
theorem nodup_unitNames : u.names.Nodup := by
  obtain ⟨symbols, htakes⟩ := h.account.takes
  have hmade : t.closures.toList.map (lambdaOf t) ++ xs.map (·.env.name)
      ++ s.carried.map (·.2.name) =
        u.lambdas.map Lowered.Lambda.name ++ u.live.map (·.2.name) := by
    rw [h.map_lambda_name hw hn, LoweredUnit.map_live_name, h.unit.envs, h.account.envs,
      h.unit.carried, List.map_map, List.append_assoc]
    rfl
  rw [hmade] at htakes
  have hsource {n : String}
      (hmem : n ∈ u.functions.map Lowered.Function.name ++ u.globals.map Lowered.Global.name) :
      n ∈ (sourceSymbols t).names := by
    rw [mem_sourceSymbols]
    simpa using h.sublist_sourceNames.subset hmem
  have hhistory {e : NamedLayout} (he : e ∈ u.history) : Name.OfEnv e.2.name :=
    .inr ((h.minted_of_history hb he).imp fun _ => And.right)
  -- Names of the source, names made in this run, and names of the past are kept apart pairwise.
  have hsplit : u.names =
      (u.functions.map Lowered.Function.name ++ u.globals.map Lowered.Global.name)
        ++ ((u.lambdas.map Lowered.Lambda.name ++ u.live.map (·.2.name))
          ++ u.history.map (·.2.name)) := by
    simp only [LoweredUnit.names, LoweredUnit.envNames, LoweredUnit.map_live_name,
      List.append_assoc]
  rw [hsplit]
  refine List.nodup_append.mpr ⟨hn.items.sublist h.sublist_sourceNames,
    List.nodup_append.mpr ⟨htakes.nodup, h.nodup_history hn hb, ?_⟩, ?_⟩
  · rintro n hmem n' hmem' rfl
    obtain ⟨e, he, heq⟩ := List.mem_map.mp hmem'
    rcases List.mem_append.mp hmem with hlambda | hmem
    · rw [h.map_lambda_name hw hn] at hlambda
      obtain ⟨k, -, hk⟩ := List.mem_map.mp hlambda
      exact (hhistory he).ne_lambda _ _ (heq.trans hk.symm)
    · obtain ⟨f, hf, hname⟩ := List.mem_map.mp hmem
      exact h.live_ne_of_history hn hb he hf (heq.trans hname.symm)
  · rintro n hmem n' hmem' rfl
    rcases List.mem_append.mp hmem' with hmade | hpast
    · exact htakes.free n hmade (hsource hmem)
    · obtain ⟨e, he, rfl⟩ := List.mem_map.mp hpast
      exact (plain_of_mem_sourceSymbols hn (hsource hmem)).elim (hhistory he).not_plain
        (hhistory he).ne_moduleFn

omit hw hn hb in
/-- A new name is one of an environment that was not taken over. -/
theorem exists_of_minted {n : String} (hmem : n ∈ u.minted) :
    ∃ x ∈ xs, x.env.name = n ∧ ∀ prior appended, x.decision ≠ .reuse prior appended := by
  rw [LoweredUnit.minted, h.unit.report, h.account.transitions, List.filterMap_append,
    List.mem_append, List.mem_filterMap, List.mem_filterMap] at hmem
  rcases hmem with ⟨r, hr, hn⟩ | ⟨r, hr, hn⟩
  · obtain ⟨x, hx, rfl⟩ := List.mem_map.mp hr
    refine ⟨x, hx, ?_⟩
    unfold Settlement.record Settlement.transition at hn
    split at hn
    · next hd => exact ⟨Option.some.inj hn, fun _ _ hreuse => by cases hd.symm.trans hreuse⟩
    · split at hn <;> cases hn
    · next hd => exact ⟨Option.some.inj hn, fun _ _ hreuse => by cases hd.symm.trans hreuse⟩
  · obtain ⟨e, -, rfl⟩ := List.mem_map.mp hr
    unfold leaving at hn
    dsimp only at hn
    split at hn <;> cases hn

omit hw hn in
/-- A new name tells the generation, or is that of the shared layout, which was not there. -/
theorem of_minted {n : String} (hmem : n ∈ u.minted) : Name.Minted u.generation n ∨
    n = Name.sharedStaticEnv ∧ ∀ l, (EnvIdentity.static.text, l) ∉ priorLayouts baseline := by
  obtain ⟨x, hx, rfl, hnew⟩ := h.exists_of_minted hmem
  rw [h.generation]
  exact (h.account.new_of_settlement h.plans (fun e he => (hb.aged e he).imp fun _ => And.right)
    hb.active hx hnew).imp (fun hminted => hminted.2.1) And.right

end Stages

/-! ## Lowering does not fail -/

/-- A sound tree can be lowered with any baseline of its unit that the next generation can start
from. -/
theorem ScopeTree.Sound.exists_stages {t : ScopeTree} (ht : t.Sound) (options : LowerOptions)
    (baseline : Option Baseline) (hunit : ∀ b ∈ baseline, b.unit = t.unit)
    (hb : Reusable baseline) : ∃ u, lowerUnit t options baseline = .ok u ∧
      ∃ a ps s xs, Stages t options baseline u a ps s xs := by
  obtain ⟨⟨holds, hw⟩, hn⟩ := ht
  have hcheck : checkBaseline t baseline = .ok () := by
    cases baseline with
    | none => rfl
    | some b => exact if_pos (beq_iff_eq.mpr (hunit b rfl))
  obtain ⟨a, ha, hcaptures⟩ := Captures.analyze_spec hw
  obtain ⟨ps, hplanned, hplans, -⟩ := planEnvironments_spec hw hcaptures options
  obtain ⟨s, hs⟩ := exists_synthesis hw hn hplans options hb
  obtain ⟨xs, haccount⟩ := account_of_synthesize hw hplans hs
  have hprepared : Prepared t options baseline a ps s xs :=
    ⟨hunit, ha, hplanned, hs, hcaptures, hplans, haccount⟩
  obtain ⟨u, hu⟩ := hprepared.exists_unit hw (sound_of_synthesize hw hn hplans hs)
  refine ⟨u, ?_, a, ps, s, xs, hprepared, unitOf_of_unit hu⟩
  unfold lowerUnit
  rw [hw.validate_ok, Lower.ok_bind, hcheck, Lower.ok_bind, ha, Lower.ok_bind, hplanned,
    Lower.ok_bind, hs, Lower.ok_bind, hu]

/-! ## Any number of lowerings -/

/-- What a unit has from the units `us` before it, the latest first, when all are of one name. -/
structure Chained (unit : String) (u : LoweredUnit) (us : List LoweredUnit) : Prop
    extends Continues u us where
  unit : u.unit = unit
  /-- The next generation can start from what the unit leaves, if there is a number for it. -/
  continuable : u.generation + 1 < generationCount → Continuable (some u.nextBaseline)
  /-- Histories have names of earlier generations. -/
  past : ∀ w ∈ u :: us, ∀ e ∈ w.history, ∃ g < w.generation, Name.Minted g e.2.name

namespace Chained

variable {unit : String} {t : ScopeTree} {options : LowerOptions} {u : LoweredUnit}
  {us : List LoweredUnit}

/-- The first unit. -/
theorem exists_first (ht : t.Sound) (options : LowerOptions) :
    ∃ u, lowerUnit t options none = .ok u ∧ u.generation = 0 ∧ Chained t.unit u [] ∧
      u.names.Nodup := by
  obtain ⟨u, hu, a, ps, s, xs, h⟩ :=
    ht.exists_stages options none nofun Reusable.none
  obtain ⟨holds, hw⟩ := ht.wellBound
  exact ⟨u, hu, h.generation, ⟨.first h, h.unit.unit, h.continuable ht.wellNamed .none,
    List.forall_mem_singleton.mpr fun e he => h.minted_of_history .none he⟩,
    h.nodup_unitNames hw ht.wellNamed .none⟩

/-- One more unit: it mints no name that any environment has had. -/
theorem exists_next (h : Chained unit u us) (hgen : u.generation + 1 < generationCount)
    (ht : t.Sound) (hunit : t.unit = unit) (options : LowerOptions) :
    ∃ v, lowerUnit t options (some u.nextBaseline) = .ok v ∧ v.generation = u.generation + 1 ∧
      Chained unit v (u :: us) ∧ v.names.Nodup ∧ ∀ w ∈ u :: us, ∀ n ∈ v.minted, n ∉ w.envNames := by
  have hb := h.continuable hgen
  obtain ⟨v, hv, a, ps, s, xs, hstages⟩ :=
    ht.exists_stages options (some u.nextBaseline) (by
      rintro b ⟨⟩
      exact h.unit.trans hunit.symm) hb.toReusable
  obtain ⟨holds, hw⟩ := ht.wellBound
  have hcontinues := h.next hgen hstages
  have hnext : v.generation = u.generation + 1 :=
    hstages.generation.trans (LoweredUnit.nextGeneration_eq hgen)
  have hpast := List.forall_mem_cons.mpr ⟨fun e he => hstages.minted_of_history hb he, h.past⟩
  refine ⟨v, hv, hnext, ⟨hcontinues, hstages.unit.unit.trans hunit,
    hstages.continuable ht.wellNamed hb, hpast⟩, hstages.nodup_unitNames hw ht.wellNamed hb, ?_⟩
  intro w hw n hminted hmem
  obtain ⟨hlt, haged⟩ := hcontinues.older w hw
  rw [LoweredUnit.mem_envNames] at hmem
  -- The name would be one of a live layout of that unit or of its past; either has an earlier
  -- generation.
  rcases hmem with ⟨e, he, rfl⟩ | ⟨e, he, rfl⟩
  · rcases hstages.of_minted hb hminted with hnew | ⟨hshared, hnone⟩
    · exact (haged e he).ne_of_minted hlt hnew rfl
    · -- the shared layout has been there, so it is not new
      have hstatic := (haged e he).eq_static hshared
      obtain ⟨l', hl'⟩ := h.exists_static w hw e.2 (hstatic ▸ he)
      exact hnone l' hl'
  · obtain ⟨g, hg, hpast⟩ := h.past w hw e he
    rcases hstages.of_minted hb hminted with hnew | ⟨hshared, -⟩
    · exact Nat.ne_of_lt (Nat.lt_trans hg hlt) (hpast.generation hnew)
    · exact hpast.ne_shared hshared

end Chained

/-- Lowers modules of one unit, one after another, each with its options and with what the one
before leaves. -/
def lowerChain : Option Baseline → List (ScopeTree × LowerOptions) → Lower (List LoweredUnit)
  | _, [] => return []
  | baseline, x :: steps => do
    let u ← lowerUnit x.1 x.2 baseline
    let us ← lowerChain (some u.nextBaseline) steps
    return u :: us

/-- What is new in a unit is not known from an earlier one. -/
def MintsAnew (earlier later : LoweredUnit) : Prop :=
  ∀ n ∈ later.minted, n ∉ earlier.envNames

/-- Any number of units after some. -/
theorem Chained.exists_run {unit : String} : ∀ (steps : List (ScopeTree × LowerOptions))
    {u : LoweredUnit} {us : List LoweredUnit}, Chained unit u us →
    u.generation + steps.length < generationCount →
    (∀ x ∈ steps, x.1.Sound ∧ x.1.unit = unit) →
    ∃ vs, lowerChain (some u.nextBaseline) steps = .ok vs ∧ vs.length = steps.length ∧
      (∀ v ∈ vs, v.names.Nodup ∧ ∀ w ∈ u :: us, MintsAnew w v) ∧ vs.Pairwise MintsAnew
  | [], _, _, _, _, _ => ⟨[], rfl, rfl, nofun, .nil⟩
  | x :: steps, u, us, h, hlen, hsteps => by
    rw [List.length_cons] at hlen
    obtain ⟨ht, hunit⟩ := hsteps x List.mem_cons_self
    obtain ⟨v, hv, hgen, hchained, hnames, hanew⟩ := h.exists_next (by omega) ht hunit x.2
    obtain ⟨vs, hvs, hlength, hrest, hpairs⟩ := Chained.exists_run steps hchained (by omega)
      fun x hx => hsteps x (List.mem_cons_of_mem _ hx)
    refine ⟨v :: vs, ?_, by rw [List.length_cons, hlength, List.length_cons],
      List.forall_mem_cons.mpr ⟨⟨hnames, hanew⟩, fun w hw => ?_⟩,
      List.pairwise_cons.mpr ⟨fun w hw => (hrest w hw).2 v List.mem_cons_self, hpairs⟩⟩
    · unfold lowerChain
      rw [hv, Lower.ok_bind, hvs]
      rfl
    · exact ⟨(hrest w hw).1, fun w' hw' => (hrest w hw).2 w' (List.mem_cons_of_mem _ hw')⟩

/-- A chain of lowerings never fails and never takes a name twice: the sources that a unit has had,
fewer than there are numbers for, can be lowered one after another with any options, each with what
the one before leaves. All names of a unit are different, and none that is minted is known from an
earlier unit. -/
theorem lowerChain_ok (unit : String) (steps : List (ScopeTree × LowerOptions))
    (hlen : steps.length < generationCount)
    (hsteps : ∀ x ∈ steps, ∃ source m, Syntax.parse source = .ok m ∧ bindModule m unit = .ok x.1) :
    ∃ us, lowerChain none steps = .ok us ∧ us.length = steps.length ∧
      (∀ u ∈ us, u.names.Nodup) ∧ us.Pairwise MintsAnew := by
  have hsound : ∀ x ∈ steps, x.1.Sound ∧ x.1.unit = unit := fun x hx => by
    obtain ⟨source, m, hm, ht⟩ := hsteps x hx
    exact ⟨sound_of_source hm ht, unit_of_bindModule ht⟩
  cases steps with
  | nil => exact ⟨[], rfl, rfl, nofun, .nil⟩
  | cons x steps =>
    obtain ⟨ht, hunit⟩ := hsound x List.mem_cons_self
    obtain ⟨u, hu, hgen, hchained, hnames⟩ := Chained.exists_first ht x.2
    obtain ⟨vs, hvs, hlength, hrest, hpairs⟩ := Chained.exists_run steps (hunit ▸ hchained)
      (by rw [hgen, Nat.zero_add]; exact Nat.lt_of_succ_lt hlen)
      fun y hy => hsound y (List.mem_cons_of_mem _ hy)
    refine ⟨u :: vs, ?_, by rw [List.length_cons, hlength, List.length_cons],
      List.forall_mem_cons.mpr ⟨hnames, fun v hv => (hrest v hv).1⟩,
      List.pairwise_cons.mpr ⟨fun v hv => (hrest v hv).2 u List.mem_cons_self, hpairs⟩⟩
    unfold lowerChain
    rw [hu, Lower.ok_bind, hvs]
    rfl

/-- The text of a source with a closure, lowered twice with different options. -/
theorem lowerChain_ok_captureText : ∃ m t us, Syntax.parse Syntax.captureText = .ok m ∧
    bindModule m "u" = .ok t ∧
      lowerChain none [(t, ⟨.contained, true⟩), (t, ⟨.never, false⟩)] = .ok us ∧ us.length = 2 ∧
      (∀ u ∈ us, u.names.Nodup) ∧ us.Pairwise MintsAnew := by
  have hsome : ((Syntax.parse Syntax.captureText).toOption.bind fun m =>
      (bindModule m "u").toOption).isSome = true := by
    rw [Syntax.parse_captureText]
    decide +kernel
  obtain ⟨t, ht⟩ := Option.isSome_iff_exists.mp hsome
  obtain ⟨m, hm, ht⟩ := Option.bind_eq_some_iff.mp ht
  rw [Lower.toOption_eq_some] at hm ht
  have hbound : ∀ x ∈ [(t, (⟨.contained, true⟩ : LowerOptions)), (t, ⟨.never, false⟩)],
      ∃ source m, Syntax.parse source = .ok m ∧ bindModule m "u" = .ok x.1 := by
    intro x hx
    have heq : x.1 = t := by
      rcases List.mem_pair.mp hx with rfl | rfl <;> rfl
    exact ⟨_, m, hm, heq ▸ ht⟩
  obtain ⟨us, hus, hlength, hnames, hpairs⟩ :=
    lowerChain_ok "u" [(t, ⟨.contained, true⟩), (t, ⟨.never, false⟩)]
      (show 2 < generationCount by decide) hbound
  exact ⟨m, t, us, hm, ht, hus, hlength, hnames, hpairs⟩

end ClosureEnv
