import ClosureEnv.Proofs.Layout.Chain

/-!
# Environments below new ones are new

Synthesis decides on each environment by itself, and takes a layout over if it names the parent that
is wanted. Where layouts come down from a chain of generations that is enough for whatever is
chained below a new environment to be new as well (`Generations.new_below_new`): a layout is never
older than its parent (`Layout.Dated`), as the name of the parent tells when it was minted.
-/

namespace ClosureEnv

open Synthesis

/-! ## Records -/

/-- The name that a record says has stayed. -/
def Transition.kept? : Transition → Option String
  | unchanged name | extended name _ => some name
  | created _ | superseded .. | carried _ | retired _ => none

namespace Report

/-- The identity of an environment has a record which says that its name is new. -/
def IsNew (r : Report) (e : EnvType) : Prop :=
  ∃ x, (e.identity.text, x) ∈ r.transitions ∧ x.minted? = some e.name

/-- The identity of an environment has a record which says that its name has stayed. -/
def IsKept (r : Report) (e : EnvType) : Prop :=
  ∃ x, (e.identity.text, x) ∈ r.transitions ∧ x.kept? = some e.name

end Report

/-! ## Ages -/

/-- A layout of generation `g` or an earlier one, which is at least as young as its parent. -/
structure Layout.Dated (g : Nat) (l : Layout) : Prop where
  mintedIn : l.mintedIn ≤ g
  /-- The name of the parent tells its age. -/
  parent : ∀ n, l.parent = some n → ∃ g' ≤ l.mintedIn, Name.Minted g' n

/-- What grows keeps its age. -/
theorem Layout.Dated.grows {g : Nat} {l l' : Layout} (h : l.Dated g) (hgrows : l.Grows l') :
    l'.Dated g := by
  refine ⟨hgrows.mintedIn ▸ h.mintedIn, fun n hn => ?_⟩
  rw [← hgrows.mintedIn]
  exact h.parent n (hgrows.parent.trans hn)

/-- A layout of a generation is one of later ones. -/
theorem Layout.Dated.mono {g g' : Nat} (hg : g ≤ g') {l : Layout} (h : l.Dated g) : l.Dated g' :=
  ⟨Nat.le_trans h.mintedIn hg, h.parent⟩

/-- The layouts of a baseline are live and tell their ages. -/
structure Dating (baseline : Option Baseline) : Prop where
  active : ∀ e ∈ priorLayouts baseline, e.2.state = .active
  /-- Their names tell an earlier generation. -/
  aged : ∀ e ∈ priorLayouts baseline, ∃ g < nextGeneration baseline, Aged g e
  /-- Their parents are no younger. -/
  dated : ∀ e ∈ priorLayouts baseline, ∃ g < nextGeneration baseline, e.2.Dated g

/-- There is nothing to date without a baseline. -/
theorem Dating.none : Dating none :=
  ⟨nofun, nofun, nofun⟩

namespace Synthesis

variable {t : ScopeTree} {ps : PlanTable} {options : LowerOptions} {baseline : Option Baseline}
  {generation : Nat} {s : Synthesis} {xs : List Settlement}

/-- A layout that is taken over keeps its name. -/
theorem Settled.name_of_reuse {x : Settlement} (h : Settled t options baseline generation x)
    {prior : Layout} {appended : List LayoutField} (hd : x.decision = .reuse prior appended) :
    x.env.name = prior.name := by
  cases h.outcome with
  | minted _ _ _ hdecision => cases hd.symm.trans hdecision
  | superseded _ _ _ _ _ _ hdecision => cases hd.symm.trans hdecision
  | reused _ _ _ _ _ hdecision hname =>
    cases hd.symm.trans hdecision
    exact hname

namespace Account

/-- The parent of an environment is that of a scope around. -/
theorem exists_parent (h : Account t ps options baseline s xs) (hps : ps.Sound t) {x : Settlement}
    (hx : x ∈ xs) {n : String} (hn : x.env.parent = some n) : ∃ y ∈ xs, y.env.name = n ∧
      ∃ i o, x.plan.origin = some i ∧ y.plan.origin = some o ∧ Around t.scopes o i := by
  obtain ⟨p, hp, he⟩ := h.exists_position hx
  obtain ⟨q, f, hq, hf, hname⟩ := h.exists_parent? hps he hn
  obtain ⟨y, hy, rfl, hplan⟩ := h.exists_settlement hf
  obtain ⟨i, o, ⟨x', hx', hi⟩, ⟨y', hy', ho⟩, haround, -⟩ := hps.linking.parent p q hq
  cases hp.symm.trans hx'
  cases hplan.symm.trans hy'
  exact ⟨y, List.mem_of_getElem? hy, hname, i, o, hi, ho, haround⟩

/-- The environment of a scope is not the shared one. -/
theorem ne_static_of_origin (h : Account t ps options baseline s xs) (hps : ps.Sound t)
    {x : Settlement} (hx : x ∈ xs) {o : ScopeId} (ho : x.plan.origin = some o) :
    x.env.identity ≠ .static := by
  obtain ⟨p, hp, -⟩ := h.exists_position hx
  obtain ⟨-, sc, -, hident⟩ := hps.linking.placed.origin p x.plan o hp ho
  rw [h.identity_env hx, hident]
  exact nofun

/-- Names tell settlements apart. -/
theorem eq_of_name (h : Account t ps options baseline s xs) {x y : Settlement} (hx : x ∈ xs)
    (hy : y ∈ xs) (heq : x.env.name = y.env.name) : x = y := by
  have hnames := (List.nodup_append.mp (List.nodup_append.mp h.nodup_names).1).2.1
  rw [h.envs, List.map_map] at hnames
  exact List.inj_on_of_nodup_map hnames hx hy heq

end Account

end Synthesis

namespace Stages

variable {t : ScopeTree} {options : LowerOptions} {baseline : Option Baseline} {u : LoweredUnit}
  {a : Captures} {ps : PlanTable} {s : Synthesis} {xs : List Settlement}

variable (h : Stages t options baseline u a ps s xs)
include h

/-- The environments of a unit are those of the settlements. -/
theorem exists_settlement {e : EnvType} (he : e ∈ u.envs) : ∃ x ∈ xs, x.env = e := by
  rw [h.unit.envs, h.account.envs] at he
  exact List.mem_map.mp he

omit h in
/-- The layout of an environment is live. -/
theorem live_of_env {e : EnvType} (he : e ∈ u.envs) : (e.identity.text, e.layout) ∈ u.live :=
  List.mem_append_left _ (List.mem_map.mpr ⟨e, he, rfl⟩)

/-- The parent of an environment is one of the unit. -/
theorem exists_parent {e : EnvType} (he : e ∈ u.envs) {n : String} (hn : e.parent = some n) :
    ∃ f ∈ u.envs, f.name = n ∧ f.identity ≠ .static := by
  obtain ⟨x, hx, rfl⟩ := h.exists_settlement he
  obtain ⟨y, hy, hname, -, o, -, ho, -⟩ := h.account.exists_parent h.plans hx hn
  refine ⟨y.env, ?_, hname, h.account.ne_static_of_origin h.plans hy ho⟩
  rw [h.unit.envs, h.account.envs]
  exact List.mem_map.mpr ⟨y, hy, rfl⟩

/-- The name of an environment is new if it was not taken over. -/
theorem isNew_iff {x : Settlement} (hx : x ∈ xs) : u.report.IsNew x.env ↔
    ∀ prior appended, x.decision ≠ .reuse prior appended := by
  constructor
  · rintro ⟨r, hr, hname⟩
    obtain ⟨y, hy, heq, hnew⟩ := h.exists_of_minted (List.mem_filterMap.mpr ⟨_, hr, hname⟩)
    exact h.account.eq_of_name hy hx heq ▸ hnew
  · intro hnew
    refine ⟨x.transition, ?_, ?_⟩
    · rw [h.unit.report, h.account.transitions, h.account.identity_env hx]
      exact List.mem_append_left _ (List.mem_map.mpr ⟨x, hx, rfl⟩)
    · unfold Settlement.transition
      split
      · rfl
      · next prior appended hd => exact absurd hd (hnew prior appended)
      · rfl

/-- The name of an environment has stayed if it was taken over. -/
theorem isKept_iff {x : Settlement} (hx : x ∈ xs) : u.report.IsKept x.env ↔
    ∃ prior appended, x.decision = .reuse prior appended := by
  have hreport : u.report.transitions = _ := (congrArg _ h.unit.report).trans h.account.transitions
  constructor
  · rintro ⟨r, hr, hname⟩
    rw [hreport, List.mem_append, List.mem_map, List.mem_map] at hr
    rcases hr with ⟨y, hy, heq⟩ | ⟨e, -, heq⟩
    · obtain ⟨-, rfl⟩ := Prod.mk.inj heq
      unfold Settlement.transition at hname
      split at hname
      · cases hname
      · -- The name in the transition is that of the prior layout, and no two environments share a
        -- name.
        next prior appended hd =>
        have hprior : prior.name = x.env.name := by
          split at hname <;> exact Option.some.inj hname
        have heq := ((h.account.settled y hy).name_of_reuse hd).trans hprior
        exact h.account.eq_of_name hy hx heq ▸ ⟨prior, appended, hd⟩
      · cases hname
    · obtain ⟨-, rfl⟩ := Prod.mk.inj heq
      split at hname <;> cases hname
  · rintro ⟨prior, appended, hd⟩
    refine ⟨x.transition, ?_, ?_⟩
    · rw [hreport, h.account.identity_env hx]
      exact List.mem_append_left _ (List.mem_map.mpr ⟨x, hx, rfl⟩)
    · rw [Settlement.transition, hd, (h.account.settled x hx).name_of_reuse hd]
      dsimp only
      split <;> rfl

variable (hb : Dating baseline)
include hb

/-- Live layouts are as old as their names. -/
theorem aged {e : NamedLayout} (he : e ∈ u.live) : Aged u.generation e :=
  h.aged_of_live hb.active (fun e he => by
    obtain ⟨g, hg, haged⟩ := hb.aged e he
    exact ⟨g, Nat.le_of_lt (h.generation ▸ hg), haged⟩) e he

/-- The name of an environment that is not the shared one tells its age. -/
theorem minted_of_env {e : EnvType} (he : e ∈ u.envs) (hne : e.identity ≠ .static) :
    Name.Minted e.generation e.name ∧ e.generation ≤ u.generation := by
  have haged := h.aged hb (live_of_env he)
  generalize hi : e.identity.text = i at haged
  cases haged with
  | minted _ _ _ hminted hle => exact ⟨hminted, hle⟩
  | shared => exact absurd (EnvIdentity.text_inj hi) hne

/-- An environment is of the generation of the unit if its name is new. -/
theorem generation_eq_iff {x : Settlement} (hx : x ∈ xs) : x.env.generation = u.generation ↔
    ∀ prior appended, x.decision ≠ .reuse prior appended := by
  rw [h.generation]
  cases (h.account.settled x hx).outcome with
  | minted _ _ _ hdecision _ _ hgen =>
    exact ⟨fun _ _ _ heq => (by cases hdecision.symm.trans heq), fun _ => hgen⟩
  | superseded _ _ _ _ _ _ hdecision _ _ hgen =>
    exact ⟨fun _ _ _ heq => (by cases hdecision.symm.trans heq), fun _ => hgen⟩
  | reused prior appended hprior _ _ hdecision _ _ hgen =>
    obtain ⟨g, hg, hdated⟩ := hb.dated _ (priorOf_eq_some hprior).1
    refine ⟨fun heq => ?_, fun hnew => absurd hdecision (hnew prior appended)⟩
    exact absurd (hgen.symm.trans heq) (Nat.ne_of_lt (Nat.lt_of_le_of_lt hdated.mintedIn hg))

/-- Live layouts are at least as young as their parents. -/
theorem dated : ∀ e ∈ u.live, e.2.Dated u.generation := by
  have hprior {e : NamedLayout} (he : e ∈ priorLayouts baseline) : e.2.Dated u.generation := by
    obtain ⟨g, hg, hdated⟩ := hb.dated e he
    exact hdated.mono (Nat.le_of_lt (h.generation ▸ hg))
  intro e he
  rcases h.mem_live.mp he with ⟨x, hx, rfl⟩ | ⟨he, -⟩
  · by_cases hnew : ∀ prior appended, x.decision ≠ .reuse prior appended
    · -- the environment is as young as can be
      have hgen := (h.generation_eq_iff hb hx).mpr hnew
      refine ⟨Nat.le_of_eq hgen, fun n hn => ?_⟩
      obtain ⟨y, hy, rfl, -, o, -, ho, -⟩ := h.account.exists_parent h.plans hx hn
      have hmem : y.env ∈ u.envs := by
        rw [h.unit.envs, h.account.envs]
        exact List.mem_map.mpr ⟨y, hy, rfl⟩
      obtain ⟨hminted, hle⟩ :=
        h.minted_of_env hb hmem (h.account.ne_static_of_origin h.plans hy ho)
      exact ⟨_, Nat.le_trans hle (Nat.le_of_eq hgen.symm), hminted⟩
    · cases (h.account.settled x hx).outcome with
      | minted _ _ _ hdecision => exact absurd (fun _ _ heq => by cases hdecision.symm.trans heq) hnew
      | superseded _ _ _ _ _ _ hdecision =>
        exact absurd (fun _ _ heq => by cases hdecision.symm.trans heq) hnew
      | reused prior appended hlive hfit _ _ _ hfields hgen =>
        exact (hprior (priorOf_eq_some hlive).1).grows
          (grows_of_fit (h.account.settled x hx) hfit hfields hgen)
  · exact hprior he

/-- No environment is older than its parent. -/
theorem generation_le_of_parent {e f : EnvType} (he : e ∈ u.envs) (hf : f ∈ u.envs)
    (hp : e.parent = some f.name) : f.generation ≤ e.generation := by
  obtain ⟨f', hf', hname, hne⟩ := h.exists_parent he hp
  obtain rfl := h.env_inj hf' hf hname
  obtain ⟨g, hg, hminted⟩ := (h.dated hb _ (live_of_env he)).parent f'.name hp
  exact (h.minted_of_env hb hf hne).1.generation hminted ▸ hg

/-- No environment is older than one that it is chained below. -/
theorem generation_le_of_climbs {start goal : String} {hops : List String}
    (hclimbs : Lowered.Climbs u.envs start hops goal) : ∀ e ∈ u.envs, ∀ f ∈ u.envs,
      f.name = start → e.name = goal → e.generation ≤ f.generation := by
  induction hclimbs with
  | here n =>
    intro e he f hf hstart hgoal
    rw [h.env_inj he hf (hgoal.trans hstart.symm)]
  | @up e' p goal hops he' hp _ ih =>
    intro e he f hf hstart hgoal
    obtain rfl := h.env_inj hf he' hstart
    obtain ⟨q, hq, rfl, -⟩ := h.exists_parent hf hp
    exact Nat.le_trans (ih e he q hq rfl hgoal) (h.generation_le_of_parent hb hf hq hp)

/-- What a unit leaves tells its age. -/
theorem dating (hgen : u.generation + 1 < generationCount) : Dating (some u.nextBaseline) := by
  have hlt : u.generation < nextGeneration (some u.nextBaseline) :=
    LoweredUnit.nextGeneration_eq hgen ▸ Nat.lt_succ_self _
  have hlive {e : NamedLayout} (he : e ∈ priorLayouts (some u.nextBaseline)) : e ∈ u.live :=
    mem_live_of_nextBaseline he
  exact ⟨fun e he => h.active_of_live e (hlive he), fun e he => ⟨_, hlt, h.aged hb (hlive he)⟩,
    fun e he => ⟨_, hlt, h.dated hb e (hlive he)⟩⟩

end Stages

/-! ## Any number of lowerings -/

namespace Generations

variable {unit : String} {us : List LoweredUnit}

/-- Each of some units was lowered with a baseline that tells its age. -/
theorem exists_dating (h : Generations unit us) : ∀ u ∈ us, ∃ t options baseline a ps s xs,
    Stages t options baseline u a ps s xs ∧ Dating baseline := by
  induction h with
  | first ht hu =>
    obtain ⟨holds, hbound⟩ := wellBound_of_bindModule ht
    obtain ⟨a, ps, s, xs, hstages⟩ := exists_stages hbound hu
    exact List.forall_mem_singleton.mpr ⟨_, _, _, a, ps, s, xs, hstages, .none⟩
  | next _ hgen ht hv ih =>
    obtain ⟨_, _, _, _, _, _, _, hu, hb⟩ := ih _ List.mem_cons_self
    obtain ⟨holds, hbound⟩ := wellBound_of_bindModule ht
    obtain ⟨a, ps, s, xs, hstages⟩ := exists_stages hbound hv
    exact List.forall_mem_cons.mpr ⟨⟨_, _, _, a, ps, s, xs, hstages, hu.dating hb hgen⟩, ih⟩

/-- Where an environment is new, all that are chained below it are. In each of some successive
units, the new environments are those whose name was minted in the generation of the unit, and all
others were kept; and what is chained below an environment of that generation is of that
generation. -/
theorem new_below_new (h : Generations unit us) : ∀ u ∈ us,
    (∀ e ∈ u.envs, (e.generation = u.generation ↔ u.report.IsNew e) ∧
      (u.report.IsKept e ↔ ¬ u.report.IsNew e)) ∧
    ∀ e ∈ u.envs, e.generation = u.generation → ∀ f ∈ u.envs, ∀ hops,
      Lowered.Climbs u.envs f.name hops e.name → f.generation = u.generation := by
  intro u hu
  obtain ⟨t, options, baseline, a, ps, s, xs, hstages, hb⟩ := h.exists_dating u hu
  refine ⟨fun e he => ?_, fun e he hnew f hf hops hclimbs => ?_⟩
  · obtain ⟨x, hx, rfl⟩ := hstages.exists_settlement he
    rw [hstages.isNew_iff hx, hstages.isKept_iff hx]
    exact ⟨hstages.generation_eq_iff hb hx, by simp⟩
  · refine Nat.le_antisymm (hstages.dated hb _ (Stages.live_of_env hf)).mintedIn ?_
    exact hnew ▸ hstages.generation_le_of_climbs hb hclimbs e he f hf rfl rfl

end Generations

/-! ## Two sources -/

/-- Lowers a source and then another one under the same name, if both can be. -/
def lowerTwice (m m' : Syntax.Module) (options : LowerOptions) :
    Option (LoweredUnit × LoweredUnit) := do
  let t ← (bindModule m "u").toOption
  let u ← (lowerUnit t options none).toOption
  let t' ← (bindModule m' "u").toOption
  let v ← (lowerUnit t' options (some u.nextBaseline)).toOption
  return (u, v)

/-- What two sources give are the units of two trees. -/
theorem lowerTwice_eq_some {m m' : Syntax.Module} {options : LowerOptions} {u v : LoweredUnit} :
    lowerTwice m m' options = some (u, v) ↔ ∃ t t', bindModule m "u" = .ok t ∧
      lowerUnit t options none = .ok u ∧ bindModule m' "u" = .ok t' ∧
      lowerUnit t' options (some u.nextBaseline) = .ok v := by
  simp only [lowerTwice, Option.bind_eq_bind, Option.bind_eq_some_iff, Lower.toOption_eq_some,
    Option.pure_def, Option.some.injEq, Prod.mk.injEq]
  constructor
  · rintro ⟨t, ht, u, hu, t', ht', v, hv, rfl, rfl⟩
    exact ⟨t, t', ht, hu, ht', hv⟩
  · rintro ⟨t, t', ht, hu, ht', hv⟩
    exact ⟨t, ht, u, hu, t', ht', v, hv, rfl, rfl⟩

/-- Two sources give a chain of two units. -/
theorem generations_of_lowerTwice {m m' : Syntax.Module} {options : LowerOptions}
    {u v : LoweredUnit} (h : lowerTwice m m' options = some (u, v)) : Generations "u" [v, u] := by
  obtain ⟨t, t', ht, hu, ht', hv⟩ := lowerTwice_eq_some.mp h
  have hgen : u.generation = 0 := by
    obtain ⟨holds, hbound⟩ := wellBound_of_bindModule ht
    obtain ⟨a, ps, s, xs, hstages⟩ := exists_stages hbound hu
    exact hstages.generation
  exact .next (.first ht hu) (hgen ▸ by decide) ht' hv

/-- Where a closure comes to outlive the function that makes it, the environment of the function is
new, and so is that of the closure, which is chained below it. -/
theorem Generations.new_below_new_nested : ∃ u v,
    lowerTwice (Syntax.nestedSource Syntax.nestedBody Syntax.calledValue)
      (Syntax.nestedSource Syntax.nestedBody Syntax.escapingValue) ⟨.never, false⟩ = some (u, v) ∧
    ∃ e ∈ v.envs, ∃ f ∈ v.envs, e.generation = v.generation ∧
      Lowered.Climbs v.envs f.name [e.name] e.name ∧ f.generation = v.generation := by
  have hsome : ((lowerTwice (Syntax.nestedSource Syntax.nestedBody Syntax.calledValue)
      (Syntax.nestedSource Syntax.nestedBody Syntax.escapingValue) ⟨.never, false⟩).map fun w =>
        w.2.envs.any fun e => w.2.envs.any fun f =>
          e.generation == w.2.generation && f.parent == some e.name) = some true := by
    decide +kernel
  obtain ⟨⟨u, v⟩, hw, hsome⟩ := Option.map_eq_some_iff.mp hsome
  obtain ⟨e, he, hsome⟩ := List.any_eq_true.mp hsome
  obtain ⟨f, hf, hsome⟩ := List.any_eq_true.mp hsome
  obtain ⟨hgen, hparent⟩ := Bool.and_eq_true_iff.mp hsome
  rw [beq_iff_eq] at hgen hparent
  have hclimbs : Lowered.Climbs v.envs f.name [e.name] e.name := .up hf hparent (.here _)
  have hbelow := ((generations_of_lowerTwice hw).new_below_new v List.mem_cons_self).2
  exact ⟨u, v, hw, e, he, f, hf, hgen, hclimbs, hbelow e he hgen f hf _ hclimbs⟩

end ClosureEnv
