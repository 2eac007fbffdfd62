import ClosureEnv.Proofs.Layout.Fresh

/-!
# Layouts that are no longer live

A lowering adds to the history what it supersedes and what it retires (`goneOf`). Both were live in
the baseline, and the unit has their identities no more or under new names, so no name of the
history comes back: what a unit leaves is again such that the next generation can start from it
(`Continuable`, `Stages.continuable`).
-/

namespace ClosureEnv

namespace Synthesis

/-- The layouts that a baseline no longer has live. -/
def pastOf (baseline : Option Baseline) : List NamedLayout :=
  (baseline.map Baseline.history).getD []

/-- A baseline that the next generation can start from. -/
structure Continuable (baseline : Option Baseline) : Prop extends Reusable baseline where
  /-- What can be taken over is live. -/
  active : ∀ e ∈ priorLayouts baseline, e.2.state = .active
  /-- The names in the history are not those of the generation to come. -/
  past : ∀ e ∈ pastOf baseline, ∃ g < nextGeneration baseline, Name.Minted g e.2.name
  /-- No two layouts of the history have one name. -/
  pastNames : ((pastOf baseline).map (·.2.name)).Nodup
  /-- No layout of the history has the name of one that is live. -/
  apart : ∀ e ∈ pastOf baseline, ∀ f ∈ priorLayouts baseline, e.2.name ≠ f.2.name

/-- There is nothing to take over without a baseline. -/
theorem Continuable.none : Continuable none where
  toReusable := .none
  active _ he := by cases he
  past _ he := by cases he
  pastNames := List.nodup_nil
  apart _ he := by cases he

variable {t : ScopeTree} {holds : VarId → ClosureId → Prop} {ps : PlanTable}
  {options : LowerOptions} {baseline : Option Baseline} {s : Synthesis} {xs : List Settlement}

/-- What goes to the history: the layouts that are superseded, and those whose origin is gone. -/
def goneOf (t : ScopeTree) (ps : PlanTable) (baseline : Option Baseline) (xs : List Settlement) :
    List NamedLayout :=
  xs.filterMap Settlement.superseded? ++
    ((leftOf ps baseline).filter (!originExists t ·.1)).map retire

/-- A settlement that supersedes a layout was decided so, on the live layout of the plan. -/
theorem Settled.superseded_eq_some {generation : Nat} {x : Settlement}
    (h : Settled t options baseline generation x) {e : NamedLayout}
    (he : x.superseded? = some e) : ∃ l reason, priorOf baseline x.plan = some l ∧
      change? l (x.desired options) = some reason ∧ x.decision = .supersede l reason ∧
      e = (x.plan.identity.text, { l with state := .superseded }) := by
  unfold Settlement.superseded? at he
  cases h.outcome with
  | minted _ _ _ hdecision => rw [hdecision] at he; cases he
  | reused _ _ _ _ _ hdecision => rw [hdecision] at he; cases he
  | superseded l reason _ _ hprior hchange hdecision =>
    rw [hdecision] at he
    cases he
    exact ⟨l, reason, hprior, hchange, hdecision, rfl⟩

namespace Account

variable (h : Account t ps options baseline s xs) (hb : Continuable baseline) (hps : ps.Sound t)
  (hn : t.WellNamed)

include h

/-- The history goes on with what is gone. -/
theorem history_eq : s.history = pastOf baseline ++ goneOf t ps baseline xs := by
  rw [h.history, goneOf, List.append_assoc]
  rfl

/-- Settlements are told apart by the identities of their plans. -/
theorem eq_of_identity (hps : ps.Sound t) (hn : t.WellNamed) {x y : Settlement} (hx : x ∈ xs)
    (hy : y ∈ xs) (heq : x.plan.identity.text = y.plan.identity.text) : x = y :=
  List.inj_on_of_nodup_map (h.map_identity ▸ nodup_produced hn hps) hx hy heq

include hb

/-- What is gone was live in the baseline under the same name. It was superseded by a settlement, or
its identity is not produced and has no origin. -/
theorem exists_of_gone {e : NamedLayout} (he : e ∈ goneOf t ps baseline xs) :
    ∃ f ∈ priorLayouts baseline, e.2.name = f.2.name ∧
      ((∃ x ∈ xs, ∃ reason, f.1 = x.plan.identity.text ∧ priorOf baseline x.plan = some f.2 ∧
          change? f.2 (x.desired options) = some reason ∧ x.decision = .supersede f.2 reason) ∨
        f.1 ∉ producedBy ps ∧ originExists t f.1 = false) := by
  rcases List.mem_append.mp he with he | he
  · obtain ⟨x, hx, hsome⟩ := List.mem_filterMap.mp he
    obtain ⟨l, reason, hprior, hchange, hdecision, rfl⟩ :=
      (h.settled x hx).superseded_eq_some hsome
    exact ⟨_, (priorOf_eq_some hprior).1, rfl,
      .inl ⟨x, hx, reason, rfl, hprior, hchange, hdecision⟩⟩
  · obtain ⟨f, hf, rfl⟩ := List.mem_map.mp he
    obtain ⟨hleft, horigin⟩ := List.mem_filter.mp hf
    obtain ⟨hf, hnot⟩ := (mem_leftOf baseline hb.active).mp hleft
    exact ⟨f, hf, rfl, .inr ⟨hnot, by simpa using horigin⟩⟩

include hps

/-- An environment has the name of a prior layout only if it has taken it over. -/
theorem reuse_of_name {x : Settlement} (hx : x ∈ xs) {f : NamedLayout}
    (hf : f ∈ priorLayouts baseline) (heq : x.env.name = f.2.name) :
    f.1 = x.plan.identity.text ∧ ∃ prior appended, x.decision = .reuse prior appended := by
  obtain ⟨g, hg, haged⟩ := hb.aged f hf
  have hnew : ¬ ∀ prior appended, x.decision ≠ .reuse prior appended := by
    intro hnew
    rcases h.new_of_settlement hps (fun e he => (hb.aged e he).imp fun _ => And.right) hb.active hx
      hnew with ⟨-, hminted, -⟩ | ⟨-, hname, hnone⟩
    · exact haged.ne_of_minted hg hminted heq.symm
    · have hstatic := haged.eq_static (heq.symm.trans hname)
      exact hnone f.2 (hstatic ▸ hf)
  cases (h.settled x hx).outcome with
  | minted _ _ _ hdecision => exact absurd (fun _ _ hr => by cases hdecision.symm.trans hr) hnew
  | superseded _ _ _ _ _ _ hdecision =>
    exact absurd (fun _ _ hr => by cases hdecision.symm.trans hr) hnew
  | reused prior appended hprior _ _ hdecision hname =>
    have hsame := hb.eq_of_name hf (priorOf_eq_some hprior).1 (heq.symm.trans hname)
    exact ⟨congrArg Prod.fst hsame, prior, appended, hdecision⟩

/-- The name of what is gone tells an earlier generation: the shared layout is never given up. -/
theorem minted_of_gone {e : NamedLayout} (he : e ∈ goneOf t ps baseline xs) :
    ∃ g < nextGeneration baseline, Name.Minted g e.2.name := by
  obtain ⟨f, hf, hname, hwhy⟩ := h.exists_of_gone hb he
  have hne : f.1 ≠ EnvIdentity.static.text := by
    intro hstatic
    rcases hwhy with ⟨x, hx, reason, hkey, hprior, hchange, -⟩ | ⟨-, horigin⟩
    · exact h.ne_static_of_superseded hps (fun e he => (hb.aged e he).imp fun _ => And.right) hx
        hprior hchange (EnvIdentity.text_inj (hkey.symm.trans hstatic))
    · rw [hstatic, originExists_text] at horigin
      cases horigin
  obtain ⟨g, hg, haged⟩ := hb.aged f hf
  cases haged with
  | minted i l _ hminted hle => exact ⟨_, Nat.lt_of_le_of_lt hle hg, hname ▸ hminted⟩
  | shared => exact absurd rfl hne

include hn

/-- Nothing that is gone has the name of an environment. -/
theorem env_ne_of_gone {e : NamedLayout} (he : e ∈ goneOf t ps baseline xs) {x : Settlement}
    (hx : x ∈ xs) : e.2.name ≠ x.env.name := by
  intro heq
  obtain ⟨f, hf, hname, hwhy⟩ := h.exists_of_gone hb he
  obtain ⟨hkey, prior, appended, hreuse⟩ :=
    h.reuse_of_name hb hps hx hf (heq.symm.trans hname)
  rcases hwhy with ⟨y, hy, reason, hkey', -, -, hsupersede⟩ | ⟨hnot, -⟩
  · cases h.eq_of_identity hps hn hx hy (hkey.symm.trans hkey')
    cases hreuse.symm.trans hsupersede
  · exact hnot (h.mem_producedBy.mpr ⟨x, hx, hkey.symm⟩)

omit hps hn in
/-- Nothing that is gone has the name of what is carried on. -/
theorem carried_ne_of_gone {e : NamedLayout} (he : e ∈ goneOf t ps baseline xs) {c : NamedLayout}
    (hc : c ∈ s.carried) : e.2.name ≠ c.2.name := by
  intro heq
  obtain ⟨f, hf, hname, hwhy⟩ := h.exists_of_gone hb he
  rw [h.carried, List.mem_filter, mem_leftOf baseline hb.active] at hc
  obtain ⟨⟨hprior, hnot⟩, horigin⟩ := hc
  obtain rfl := hb.eq_of_name hprior hf (heq.symm.trans hname)
  rcases hwhy with ⟨y, hy, reason, hkey, -⟩ | ⟨-, hgone⟩
  · exact hnot (h.mem_producedBy.mpr ⟨y, hy, hkey.symm⟩)
  · cases hgone.symm.trans horigin

/-- No two layouts that are gone have one name. -/
theorem nodup_gone : ((goneOf t ps baseline xs).map (·.2.name)).Nodup := by
  have hkeys : xs.Pairwise fun x y => x.plan.identity.text ≠ y.plan.identity.text :=
    List.pairwise_map.mp (h.map_identity ▸ nodup_produced hn hps)
  have hprior {x : Settlement} (hx : x ∈ xs) {e : NamedLayout} (he : x.superseded? = some e) :
      ∃ l, (x.plan.identity.text, l) ∈ priorLayouts baseline ∧ e.2.name = l.name := by
    obtain ⟨l, reason, hprior, -, -, rfl⟩ := (h.settled x hx).superseded_eq_some he
    exact ⟨l, (priorOf_eq_some hprior).1, rfl⟩
  rw [goneOf, List.map_append, List.nodup_append]
  refine ⟨?_, ?_, ?_⟩
  · refine List.pairwise_map.mpr (List.pairwise_filterMap.mpr (hkeys.imp_of_mem ?_))
    intro x y hx hy hne e he f hf heq
    obtain ⟨l, hl, hname⟩ := hprior hx he
    obtain ⟨m, hm, hname'⟩ := hprior hy hf
    exact hne (congrArg Prod.fst (hb.eq_of_name hl hm (hname.symm.trans (heq.trans hname'))))
  · rw [List.map_map]
    exact hb.names.sublist ((List.filter_sublist.trans List.filter_sublist).map _)
  · -- What was superseded was produced again, and what was retired was not.
    intro n hsuperseded n' hretired heq
    obtain ⟨e, he, rfl⟩ := List.mem_map.mp hsuperseded
    obtain ⟨x, hx, hsome⟩ := List.mem_filterMap.mp he
    obtain ⟨l, hl, hname⟩ := hprior hx hsome
    obtain ⟨f, hf, rfl⟩ := List.mem_map.mp hretired
    obtain ⟨f', hf', rfl⟩ := List.mem_map.mp hf
    obtain ⟨hf', hnot⟩ := (mem_leftOf baseline hb.active).mp (List.mem_filter.mp hf').1
    have hsame := hb.eq_of_name hl hf' (hname.symm.trans heq)
    exact hnot (h.mem_producedBy.mpr ⟨x, hx, congrArg Prod.fst hsame⟩)

end Account

end Synthesis

open Synthesis

namespace Stages

variable {t : ScopeTree} {holds : VarId → ClosureId → Prop} {options : LowerOptions}
  {baseline : Option Baseline} {u : LoweredUnit} {a : Captures} {ps : PlanTable} {s : Synthesis}
  {xs : List Settlement}

variable (h : Stages t options baseline u a ps s xs) (hn : t.WellNamed)
  (hb : Continuable baseline)

include h

/-- The history of a unit is that of the baseline and what is gone. -/
theorem history_eq : u.history = pastOf baseline ++ goneOf t ps baseline xs :=
  h.unit.history.trans h.account.history_eq

include hb

/-- The names in the history of a unit are those of earlier generations. -/
theorem minted_of_history {e : NamedLayout} (he : e ∈ u.history) :
    ∃ g < u.generation, Name.Minted g e.2.name := by
  rw [h.generation]
  rw [h.history_eq, List.mem_append] at he
  exact he.elim (hb.past e) (h.account.minted_of_gone hb h.plans)

include hn

/-- No two layouts in the history of a unit have one name. -/
theorem nodup_history : (u.history.map (·.2.name)).Nodup := by
  rw [h.history_eq, List.map_append, List.nodup_append]
  refine ⟨hb.pastNames, h.account.nodup_gone hb h.plans hn, ?_⟩
  intro n hpast n' hgone heq
  obtain ⟨e, he, rfl⟩ := List.mem_map.mp hpast
  obtain ⟨e', he', rfl⟩ := List.mem_map.mp hgone
  obtain ⟨f, hf, hname, -⟩ := h.account.exists_of_gone hb he'
  exact hb.apart e he f hf (heq.trans hname)

/-- No layout in the history of a unit has the name of one that is live. -/
theorem live_ne_of_history {e : NamedLayout} (he : e ∈ u.history) {f : NamedLayout}
    (hf : f ∈ u.live) : e.2.name ≠ f.2.name := by
  rw [h.history_eq, List.mem_append] at he
  rcases he with hpast | hgone
  · obtain ⟨g, hg, hminted⟩ := hb.past e hpast
    intro heq
    cases h.comes_of_live hb.active (fun e he => (hb.aged e he).imp fun _ => And.right) f hf with
    | minted i l _ hnew =>
      exact Nat.ne_of_lt (h.generation ▸ hg) (hminted.generation (heq ▸ hnew))
    | shared l hl => exact hminted.ne_shared (heq.trans hl.name)
    | kept i l l' hl hname => exact hb.apart e hpast _ hl (heq.trans hname.symm)
  · rw [LoweredUnit.live, h.unit.envs, h.account.envs, h.unit.carried, List.mem_append] at hf
    rcases hf with hmade | hcarried
    · obtain ⟨y, hy, rfl⟩ := List.mem_map.mp hmade
      obtain ⟨x, hx, rfl⟩ := List.mem_map.mp hy
      exact h.account.env_ne_of_gone hb h.plans hn hgone hx
    · exact h.account.carried_ne_of_gone hb hgone hcarried

/-- The next generation can start from what a unit leaves, as long as there is a number for it. -/
theorem continuable (hgen : u.generation + 1 < generationCount) :
    Continuable (some u.nextBaseline) := by
  have hlt : u.generation < nextGeneration (some u.nextBaseline) :=
    LoweredUnit.nextGeneration_eq hgen ▸ Nat.lt_succ_self _
  have hlive (e : NamedLayout) (he : e ∈ priorLayouts (some u.nextBaseline)) : e ∈ u.live :=
    mem_live_of_nextBaseline he
  have haged := h.aged_of_live hb.active fun e he => by
    obtain ⟨g, hg, haged⟩ := hb.aged e he
    exact ⟨g, Nat.le_of_lt (h.generation ▸ hg), haged⟩
  refine ⟨⟨?_, ?_⟩, ?_, ?_, ?_, ?_⟩
  · -- identities tell the layouts of a baseline apart, and names those that are live
    have hsorted : u.nextBaseline.envs.Sorted := SortedMap.sorted_ofList _
    exact (hsorted.nodup_keys.of_map _).map_on fun e he f hf heq =>
      List.inj_on_of_nodup_map h.nodup_live (hlive e he) (hlive f hf) heq
  · exact fun e he => ⟨_, hlt, haged e (hlive e he)⟩
  · exact fun e he => h.active_of_live e (hlive e he)
  · intro e he
    obtain ⟨g, hg, hminted⟩ := h.minted_of_history hb he
    exact ⟨g, Nat.lt_trans hg hlt, hminted⟩
  · exact h.nodup_history hn hb
  · exact fun e he f hf => h.live_ne_of_history hn hb he (hlive f hf)

end Stages

end ClosureEnv
