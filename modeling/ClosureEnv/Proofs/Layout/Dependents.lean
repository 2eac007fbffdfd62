import ClosureEnv.Proofs.Layout.Age
import ClosureEnv.Proofs.Lowered.Uses
import ClosureEnv.Proofs.Lowered.Whole

/-!
# What depends on a superseded layout

A degradation lists the environments chained below the replacement, and the lambdas whose own
environment is the replacement or chained below it (`LoweredUnit.Dependents`). A lambda whose body
names such an environment is listed too if it finds the environment outside of itself, but not if it
enters the replacement (`exists_unlisted_lambda`), though its body is another one then.
-/

namespace ClosureEnv

open Lowered (Below Creates Lambda Scheme)

/-! ## Chains of plans -/

namespace PlanTable

variable {ps : PlanTable}

/-- A chain of parents comes by a plan if it can be walked to within the bound. -/
theorem chainMeets_iff {root : PlanId} {bound : Nat} {cur : PlanId} :
    Synthesis.chainMeets ps root bound cur = true ↔
      ∃ way, Walk ps cur way root ∧ way.length ≤ bound := by
  induction bound generalizing cur with
  | zero =>
    unfold Synthesis.chainMeets
    rw [Bool.or_eq_true, beq_iff_eq]
    constructor
    · rintro (rfl | hmeets)
      · exact ⟨[], .here _, Nat.le_refl _⟩
      · split at hmeets <;> contradiction
    · rintro ⟨way, hway, hlen⟩
      cases hway with
      | here => exact .inl rfl
      | up => cases hlen
  | succ bound ih =>
    unfold Synthesis.chainMeets
    rw [Bool.or_eq_true, beq_iff_eq]
    constructor
    · rintro (rfl | hmeets)
      · exact ⟨[], .here _, Nat.zero_le _⟩
      · split at hmeets
        · next q _ hq heq =>
          cases heq
          obtain ⟨way, hway, hlen⟩ := ih.mp hmeets
          exact ⟨q :: way, .up hq hway, Nat.succ_le_succ hlen⟩
        · cases hmeets
    · rintro ⟨way, hway, hlen⟩
      cases hway with
      | here => exact .inl rfl
      | @up _ q _ way hq hway =>
        have hq' : ps.plans[cur]?.bind Plan.parent = some q := hq
        rw [hq']
        exact .inr (ih.mpr ⟨way, hway, Nat.le_of_succ_le_succ hlen⟩)

/-- In a linked table the bound is never met. -/
theorem Linking.chainMeets_iff {t : ScopeTree} {captured : VarId → Prop}
    (hl : Linking t captured ps) (hpre : Preorder t.scopes) {root cur : Nat}
    (hcur : cur < ps.plans.size) :
    Synthesis.chainMeets ps root ps.plans.size cur = true ↔ ∃ way, Walk ps cur way root := by
  rw [PlanTable.chainMeets_iff]
  refine exists_congr fun way => ⟨And.left, fun hway => ⟨hway, ?_⟩⟩
  have hlen := hl.add_length_le hpre hway
  omega

end PlanTable

/-! ## Chains of environments -/

namespace Stages

variable {t : ScopeTree} {holds : VarId → ClosureId → Prop} {options : LowerOptions}
  {baseline : Option Baseline} {u : LoweredUnit} {a : Captures} {ps : PlanTable} {s : Synthesis}
  {xs : List Synthesis.Settlement} (hs : Stages t options baseline u a ps s xs)

include hs

/-- The number of a plan is that of its environment. -/
theorem plan_lt_size {p : Nat} {e : EnvType} (he : s.envs[p]? = some e) : p < ps.plans.size := by
  obtain ⟨x, hx, -⟩ := hs.account.standsFor hs.plans he
  exact (Array.getElem?_eq_some_iff.mp hx).1

/-- The environment of a plan is that of another one if it is called so. -/
theorem plan_inj {p q : Nat} {e f : EnvType} (he : s.envs[p]? = some e) (hf : s.envs[q]? = some f)
    (heq : e.name = f.name) : p = q := by
  obtain rfl := hs.env_inj (hs.mem_envs.mpr ⟨p, he⟩) (hs.mem_envs.mpr ⟨q, hf⟩) heq
  obtain ⟨x, -, hx⟩ := hs.account.standsFor hs.plans he
  obtain ⟨y, -, hy⟩ := hs.account.standsFor hs.plans hf
  exact hx.plan.symm.trans hy.plan

/-- Where plans are linked, environments are chained. -/
theorem below_of_walk {p q : Nat} {way : List PlanId} (hway : PlanTable.Walk ps p way q)
    {f : EnvType} (hf : s.envs[q]? = some f) :
    ∀ {e : EnvType}, s.envs[p]? = some e → Below u.envs e.name f.name := by
  induction hway with
  | here p =>
    intro e he
    cases he.symm.trans hf
    exact .refl _ _
  | @up p r q way hr _ ih =>
    intro e he
    obtain ⟨g, hg, hparent⟩ := hs.parent_name he hr
    obtain ⟨hops, hclimbs⟩ := ih hf hg
    exact ⟨_, .up (hs.mem_envs.mpr ⟨p, he⟩) hparent hclimbs⟩

/-- Where environments are chained, plans are linked. -/
theorem exists_walk_of_climbs {n m : String} {hops : List String}
    (hclimbs : Lowered.Climbs u.envs n hops m) {q : Nat} {f : EnvType} (hf : s.envs[q]? = some f)
    (hm : f.name = m) : ∀ {p : Nat} {e : EnvType}, s.envs[p]? = some e → e.name = n →
      ∃ way, PlanTable.Walk ps p way q := by
  induction hclimbs with
  | here n =>
    intro p e he hn
    obtain rfl := hs.plan_inj he hf (hn.trans hm.symm)
    exact ⟨[], .here p⟩
  | @up e' n' m hops he' hparent _ ih =>
    intro p e he hn
    obtain rfl := hs.env_inj (hs.mem_envs.mpr ⟨p, he⟩) he' hn
    obtain ⟨r, g, hr, hg, hname⟩ := hs.account.exists_parent? hs.plans he hparent
    obtain ⟨way, hway⟩ := ih hm hg hname
    exact ⟨r :: way, .up hr hway⟩

variable (h : t.WellBound holds)
include h

/-- A chain of plans meets another plan if the environments are chained. -/
theorem chainMeets_iff {p q : Nat} {e f : EnvType} (he : s.envs[p]? = some e)
    (hf : s.envs[q]? = some f) :
    Synthesis.chainMeets ps q ps.plans.size p = true ↔ Below u.envs e.name f.name := by
  rw [hs.plans.linking.chainMeets_iff h.preorder (hs.plan_lt_size he)]
  constructor
  · rintro ⟨way, hway⟩
    exact hs.below_of_walk hway hf he
  · rintro ⟨hops, hclimbs⟩
    exact hs.exists_walk_of_climbs hclimbs hf rfl he rfl

/-! ## Lambdas -/

/-- A lambda is that of a closure, bound to its environment, and called as synthesis has it. -/
theorem closure_of_lambda {l : Lambda} (hl : l ∈ u.lambdas) :
    ∃ k ∈ t.closures, ∃ b e, ps.bindings.find? k.id = some b ∧ s.envs[b.plan]? = some e ∧
      l.env = e.name ∧ s.lambdaNames.find? k.id = some l.name ∧
        l.name = Synthesis.lambdaOf t k := by
  obtain ⟨k, hk, accesses, hlower⟩ := Lower.exists_left_of_forall₂ hs.unit.lambdas hl
  obtain ⟨b, e, hb, he, -, henv, -⟩ := Scheme.lambda_rest hlower
  obtain ⟨-, -, -, -, -, -, -, -, hname, -⟩ := Scheme.lambda_eq_ok hlower
  obtain ⟨c, hc⟩ := Array.mem_iff_getElem?.mp (Array.mem_toList_iff.mp hk)
  have hfind := Synthesis.find?_lambdas h hc
  rw [← hs.account.lambdas, ← h.closure_id c k hc] at hfind
  exact ⟨k, Array.mem_toList_iff.mp hk, b, e, hb, Scheme.env_eq_ok.mp he, henv, hname,
    Option.some.inj (hname.symm.trans hfind)⟩

omit h in
/-- Closures whose lambdas are called the same are the same. -/
theorem lambdaOf_inj {k l : Closure} (hk : k ∈ t.closures) (hl : l ∈ t.closures)
    (heq : Synthesis.lambdaOf t k = Synthesis.lambdaOf t l) : k = l :=
  List.inj_on_of_nodup_map (List.nodup_append.mp (List.nodup_append.mp hs.account.nodup_names).1).1
    (Array.mem_toList_iff.mpr hk) (Array.mem_toList_iff.mpr hl) heq

/-- Lambdas that are called the same have the same environment. -/
theorem lambda_env {l l' : Lambda} (hl : l ∈ u.lambdas) (hl' : l' ∈ u.lambdas)
    (heq : l.name = l'.name) : l.env = l'.env := by
  obtain ⟨k, hk, b, e, hb, he, henv, -, hname⟩ := hs.closure_of_lambda h hl
  obtain ⟨k', hk', b', e', hb', he', henv', -, hname'⟩ := hs.closure_of_lambda h hl'
  obtain rfl := hs.lambdaOf_inj hk hk' (hname.symm.trans (heq.trans hname'))
  cases hb.symm.trans hb'
  cases he.symm.trans he'
  exact henv.trans henv'.symm

/-- No lambda is called as an environment. -/
theorem lambda_ne_env {l : Lambda} (hl : l ∈ u.lambdas) {e : EnvType} (he : e ∈ u.envs) :
    l.name ≠ e.name := by
  obtain ⟨k, hk, -, -, -, -, -, -, hname⟩ := hs.closure_of_lambda h hl
  have hdisjoint :=
    (List.nodup_append.mp (List.nodup_append.mp hs.account.nodup_names).1).2.2
  rw [hs.unit.envs] at he
  rw [hname]
  exact hdisjoint _ (List.mem_map_of_mem (Array.mem_toList_iff.mpr hk)) _ (List.mem_map_of_mem he)

/-! ## Dependents -/

/-- What depends on a plan: the environments chained below its own, and the lambdas whose
environment is that one or chained below it. -/
theorem mem_dependents {q : Nat} {f : EnvType} (hf : s.envs[q]? = some f) {n : String} :
    n ∈ Synthesis.dependents t ps s.envs s.lambdaNames q ↔
      (∃ e ∈ u.envs, e.name = n ∧ e.name ≠ f.name ∧ Below u.envs e.name f.name) ∨
        ∃ l ∈ u.lambdas, l.name = n ∧ Below u.envs l.env f.name := by
  unfold Synthesis.dependents
  rw [SortedSet.mem_ofList, List.mem_append, List.mem_filterMap, List.mem_filterMap]
  -- The table is read along the plans and along the closures, each giving the names of its own
  -- kind.
  refine or_congr ⟨?_, ?_⟩ ⟨?_, ?_⟩
  · rintro ⟨x, hx, hn⟩
    split at hn
    · next hcond =>
      obtain ⟨e, he, rfl⟩ := Option.map_eq_some_iff.mp hn
      rw [Bool.and_eq_true, bne_iff_ne, hs.chainMeets_iff h he hf] at hcond
      exact ⟨e, hs.mem_envs.mpr ⟨_, he⟩, rfl, fun heq => hcond.1 (hs.plan_inj he hf heq), hcond.2⟩
    · cases hn
  · rintro ⟨e, he, rfl, hne, hbelow⟩
    obtain ⟨p, hp⟩ := hs.mem_envs.mp he
    obtain ⟨x, hx, -⟩ := hs.account.standsFor hs.plans hp
    have hid := hs.plans.linking.placed.plan_id p x hx
    have hpq : p ≠ q := fun heq => hne (congrArg EnvType.name (Option.some.inj
      (hp.symm.trans (heq ▸ hf))))
    refine ⟨x, Array.mem_toList_iff.mpr (Array.mem_of_getElem? hx), ?_⟩
    rw [hid, if_pos, hp, Option.map_some]
    rw [Bool.and_eq_true, bne_iff_ne, hs.chainMeets_iff h hp hf]
    exact ⟨hpq, hbelow⟩
  · rintro ⟨k, hk, hn⟩
    rw [Array.mem_toList_iff] at hk
    obtain ⟨c, hc⟩ := Array.mem_iff_getElem?.mp hk
    obtain ⟨l, accesses, hl, hlower⟩ := hs.exists_lambda hc
    obtain ⟨b, e, hb, he, -, henv, -⟩ := Scheme.lambda_rest hlower
    obtain ⟨-, -, -, -, -, -, -, -, hname, -⟩ := Scheme.lambda_eq_ok hlower
    rw [hb] at hn
    dsimp only at hn
    split at hn
    · next hmeets =>
      rw [hs.chainMeets_iff h (Scheme.env_eq_ok.mp he) hf] at hmeets
      exact ⟨l, hl, Option.some.inj (hname.symm.trans hn), henv ▸ hmeets⟩
    · cases hn
  · rintro ⟨l, hl, rfl, hbelow⟩
    obtain ⟨k, hk, b, e, hb, he, henv, hname, -⟩ := hs.closure_of_lambda h hl
    refine ⟨k, Array.mem_toList_iff.mpr hk, ?_⟩
    rw [hb]
    dsimp only
    rw [if_pos ((hs.chainMeets_iff h he hf).mpr (henv ▸ hbelow)), hname]

omit h in
/-- A degradation is of an environment, with what depends on its plan. -/
theorem exists_env_of_degraded {d : Degradation} (hd : d ∈ u.report.degraded) :
    ∃ q f, s.envs[q]? = some f ∧ d.replacement = f.name ∧
      d.dependents = Synthesis.dependents t ps s.envs s.lambdaNames q := by
  rw [hs.unit.report, hs.account.degraded] at hd
  obtain ⟨⟨q, d⟩, hq, rfl⟩ := List.mem_map.mp hd
  obtain ⟨x, hx, hq⟩ := List.mem_filterMap.mp hq
  unfold Synthesis.Settlement.degradation? at hq
  obtain ⟨p, hp, he⟩ := hs.account.exists_position hx
  split at hq
  · cases hq
  · cases hq
  · cases hq
    rw [hs.plans.linking.placed.plan_id p x.plan hp]
    exact ⟨p, x.env, he, rfl, rfl⟩

end Stages

/-- What a degradation lists, and which lambdas are left out though they name what it lists. -/
structure LoweredUnit.Dependents (u : LoweredUnit) (d : Degradation) : Prop where
  /-- The replacement is an environment of the unit. -/
  replacement : ∃ e ∈ u.envs, e.name = d.replacement
  /-- An environment is listed if it is chained below the replacement. -/
  envs : ∀ e ∈ u.envs, e.name ∈ d.dependents ↔
    e.name ≠ d.replacement ∧ Below u.envs e.name d.replacement
  /-- A lambda is listed if its environment is the replacement or chained below it. -/
  lambdas : ∀ l ∈ u.lambdas, l.name ∈ d.dependents ↔ Below u.envs l.env d.replacement
  /-- Nothing else is listed. -/
  listed : ∀ n ∈ d.dependents, (∃ e ∈ u.envs, e.name = n) ∨ ∃ l ∈ u.lambdas, l.name = n
  /-- A lambda whose body names the replacement or an environment chained below it is listed, or it
  brings one of these into existence itself. -/
  bodies : ∀ l ∈ u.lambdas, ∀ x ∈ l.body.uses, ∀ n ∈ x.names, Below u.envs n d.replacement →
    l.name ∈ d.dependents ∨ Creates u.envs d.replacement l.body.uses

/-- The degradations of a unit list the environments chained below the replacement and the lambdas
that are made with any of these, in full. Lambdas that name one of these in their bodies are among
them, but for those that bring one into existence themselves. -/
theorem lowerUnit_dependents {unit : String} {m : Syntax.Module} {t : ScopeTree}
    (ht : bindModule m unit = .ok t) {options : LowerOptions} {baseline : Option Baseline}
    {u : LoweredUnit} (hu : lowerUnit t options baseline = .ok u) :
    ∀ d ∈ u.report.degraded, u.Dependents d := by
  obtain ⟨holds, h⟩ := wellBound_of_bindModule ht
  obtain ⟨a, ps, s, xs, hs⟩ := exists_stages h hu
  intro d hd
  obtain ⟨q, f, hf, hreplacement, hdependents⟩ := hs.exists_env_of_degraded hd
  have hmem (n : String) := hs.mem_dependents h hf (n := n)
  rw [← hdependents, ← hreplacement] at hmem
  have hlambdas : ∀ l ∈ u.lambdas, l.name ∈ d.dependents ↔ Below u.envs l.env d.replacement := by
    intro l hl
    rw [hmem]
    constructor
    · rintro (⟨e, he, hname, -⟩ | ⟨l', hl', hname, hbelow⟩)
      · -- Lambdas and environments have no name in common, so each half of the table is about its
        -- kind.
        exact absurd hname.symm (hs.lambda_ne_env h hl he)
      · rwa [← hs.lambda_env h hl' hl hname]
    · exact fun hbelow => .inr ⟨l, hl, rfl, hbelow⟩
  refine ⟨⟨f, hs.mem_envs.mpr ⟨q, hf⟩, hreplacement.symm⟩, fun e he => ?_, hlambdas, fun n hn => ?_,
    fun l hl x hx n hn hbelow => ?_⟩
  · rw [hmem]
    constructor
    · rintro (⟨e', -, hname, hrest⟩ | ⟨l, hl, hname, -⟩)
      · rwa [hname] at hrest
      · exact absurd hname (hs.lambda_ne_env h hl he)
    · exact fun hrest => .inl ⟨e, he, rfl, hrest⟩
  · exact ((hmem n).mp hn).imp (fun ⟨e, he, hname, _⟩ => ⟨e, he, hname⟩)
      fun ⟨l, hl, hname, _⟩ => ⟨l, hl, hname⟩
  · obtain ⟨k, -, hl'⟩ := Lower.exists_left_of_forall₂ (hs.lambdasOf h) hl
    exact (hl'.traced hs.nodup_names rfl hx hn hbelow).imp_left (hlambdas l hl).mpr

/-- Where a closure comes to outlive the function that makes it, both environments are superseded,
and two degradations list what depends on them. -/
theorem lowerUnit_dependents_nested : ∃ u v,
    lowerTwice (Syntax.nestedSource Syntax.nestedBody Syntax.calledValue)
      (Syntax.nestedSource Syntax.nestedBody Syntax.escapingValue) ⟨.never, false⟩ = some (u, v) ∧
    v.report.degraded.length = 2 ∧ ∀ d ∈ v.report.degraded, v.Dependents d := by
  have hsome : ((lowerTwice (Syntax.nestedSource Syntax.nestedBody Syntax.calledValue)
      (Syntax.nestedSource Syntax.nestedBody Syntax.escapingValue) ⟨.never, false⟩).map
        fun w => w.2.report.degraded.length) = some 2 := by
    decide +kernel
  obtain ⟨⟨u, v⟩, hw, hlen⟩ := Option.map_eq_some_iff.mp hsome
  obtain ⟨t, t', ht, hu, ht', hv⟩ := lowerTwice_eq_some.mp hw
  exact ⟨u, v, hw, hlen, lowerUnit_dependents ht' hv⟩

/-- A lambda that enters the replacement need not be listed: the closure `f` enters the environment
that its parameter is in, which is superseded as its parent is. -/
theorem exists_unlisted_lambda : ∃ u v,
    lowerTwice (Syntax.nestedSource Syntax.nestedBody Syntax.calledValue)
      (Syntax.nestedSource Syntax.nestedBody Syntax.escapingValue) ⟨.never, false⟩ = some (u, v) ∧
    ∃ d ∈ v.report.degraded, ∃ l ∈ v.lambdas, .enter d.replacement ∈ l.body.uses ∧
      l.name ∉ d.dependents := by
  have hsome : ((lowerTwice (Syntax.nestedSource Syntax.nestedBody Syntax.calledValue)
      (Syntax.nestedSource Syntax.nestedBody Syntax.escapingValue) ⟨.never, false⟩).map fun w =>
        w.2.report.degraded.any fun d => w.2.lambdas.any fun l =>
          l.body.uses.contains (.enter d.replacement) && !d.dependents.contains l.name) =
      some true := by
    decide +kernel
  obtain ⟨⟨u, v⟩, hw, hsome⟩ := Option.map_eq_some_iff.mp hsome
  obtain ⟨d, hd, hsome⟩ := List.any_eq_true.mp hsome
  obtain ⟨l, hl, hsome⟩ := List.any_eq_true.mp hsome
  simp only [Bool.and_eq_true, List.contains_iff_mem, Bool.not_eq_true',
    ← Bool.not_eq_true] at hsome
  exact ⟨u, v, hw, d, hd, l, hl, hsome⟩

end ClosureEnv
