import ClosureEnv.Proofs.Layout.Age

/-!
# Fields that are told apart

Variables may share a name, and their fields do not: each counts the earlier ones of its name, and
the sign in front of the count is in no name of the source (`Name.Told`). A layout that is taken
over has fields of several generations, those that are kept and those that were appended later. They
differ too, since no field is appended that is there (`Settled.nodup_fields`); so over any number of
lowerings every variable of a plan has one field in its environment (`fields_told`).
-/

namespace ClosureEnv

open Synthesis

/-! ## The names of fields -/

/-- What the names of fields are for variables of some names. -/
structure Name.Told (names : List String) : Prop where
  /-- There is one for each variable. -/
  length : (fields names).length = names.length
  /-- No two are the same. -/
  nodup : (fields names).Nodup
  /-- The first of some variables of one name has that name, and the others count the earlier
  ones. -/
  name : ∀ i n, names[i]? = some n → (fields names)[i]? = some
    (if (names.take i).count n = 0 then n else n ++ "$" ++ toString ((names.take i).count n))
  /-- They do not depend on the variables that follow. -/
  grows : ∀ front, front <+: names → fields front = (fields names).take front.length

/-- Names without the sign in front of a count are told apart by their fields. -/
theorem Name.told {names : List String} (h : ∀ n ∈ names, '$' ∉ n.toList) : Told names where
  length := length_fieldsFrom [] names
  nodup := nodup_fieldsFrom [] names h
  name i n hn := by
    rw [fields, getElem?_fieldsFrom, hn, Option.map_some, List.count_nil, Nat.zero_add, field]
    simp only [beq_iff_eq]
  grows front hfront := by
    rw [List.prefix_iff_eq_take.mp hfront, fields, fieldsFrom_take, ← fields]
    simp [(List.prefix_iff_eq_take.mp hfront).symm]

example : Name.fields ["x", "y", "x", "x"] = ["x", "y", "x$1", "x$2"] := by decide +kernel

/-! ## The fields of a layout -/

/-- The fields of an environment tell the variables of a plan apart: they have different names, and
each variable has one of them. -/
structure EnvType.Tells (e : EnvType) (p : Plan) : Prop where
  /-- No two fields have one name. -/
  names : (e.fields.map EnvField.name).Nodup
  /-- There is one field for each variable of the plan. -/
  slot : ∀ v ∈ p.slots, ∃! i : Nat, ∃ f, e.fields[i]? = some f ∧ f.var = some v
  /-- There is none for another variable. -/
  var : ∀ f ∈ e.fields, ∀ v, f.var = some v → v ∈ p.slots

/-- Fields that tell the variables of a plan apart by name give each of them one. -/
theorem HasFields.tells {e : EnvType} {p : Plan} (h : HasFields p.slots e.fields)
    (hnames : (e.fields.map EnvField.name).Nodup) : e.Tells p := by
  obtain ⟨name, -, hname, hcover⟩ := h
  refine ⟨hnames, fun v hv => ?_, fun f hf v hfv => (hname f hf v hfv).1⟩
  obtain ⟨f, hf, hfv⟩ := hcover v hv
  obtain ⟨i, hi⟩ := List.mem_iff_getElem?.mp hf
  refine ⟨i, ⟨f, hi, hfv⟩, ?_⟩
  rintro j ⟨g, hj, hgv⟩
  have heq : f.name = g.name :=
    (hname f hf v hfv).2.trans (hname g (List.mem_of_getElem? hj) v hgv).2.symm
  have hlt : i < (e.fields.map EnvField.name).length := by
    simpa using (List.getElem?_eq_some_iff.mp hi).1
  exact ((List.getElem?_inj hlt hnames).mp (by simp [hi, hj, heq])).symm

/-- No two fields of a layout have one name. -/
def Layout.Distinct (l : Layout) : Prop :=
  (l.fields.map LayoutField.name).Nodup

/-- The layout of an environment has the names of its fields. -/
theorem EnvType.distinct_layout {e : EnvType} :
    e.layout.Distinct ↔ (e.fields.map EnvField.name).Nodup := by
  have hnames : e.layout.fields.map LayoutField.name = e.fields.map EnvField.name := by
    simp [layout]
  rw [Layout.Distinct, hnames]

namespace Synthesis

variable {t : ScopeTree} {ps : PlanTable} {options : LowerOptions} {baseline : Option Baseline}
  {generation : Nat}

/-- New fields have the names that were wanted. -/
theorem Wanted.map_name_newFields {p : Plan} {fields : List LayoutField} (h : Wanted p fields) :
    (newFields p fields).map EnvField.name = fields.map LayoutField.name :=
  List.ext_getElem (by simp [newFields, h.length]) fun i _ _ => by simp [newFields]

/-- Fields that a layout does not have can be appended to those that it has. -/
theorem Wanted.nodup_append {p : Plan} {fields : List LayoutField} (h : Wanted p fields)
    {prior : Layout} (hprior : prior.Distinct) : ((prior.fields ++
      fields.filter fun f => (prior.field? f.name).isNone).map LayoutField.name).Nodup := by
  rw [List.map_append]
  refine List.nodup_append.mpr ⟨hprior, h.nodup.sublist (List.filter_sublist.map _), ?_⟩
  rintro n hn n' hn' rfl
  obtain ⟨f, hf, rfl⟩ := List.mem_map.mp hn
  obtain ⟨g, hg, hgf⟩ := List.mem_map.mp hn'
  have hnone := (List.mem_filter.mp hg).2
  rw [Option.isNone_iff_eq_none, Layout.field?, List.find?_eq_none] at hnone
  exact hnone f hf (by simp [hgf])

/-- The fields that are settled on have different names, if those of the prior layout had. -/
theorem Settled.nodup_fields {x : Settlement} (h : Settled t options baseline generation x)
    (hw : Wanted x.plan x.fields) (hprior : ∀ e ∈ priorLayouts baseline, e.2.Distinct) :
    (x.env.fields.map EnvField.name).Nodup := by
  cases h.outcome with
  | minted _ _ _ _ _ hfields | superseded _ _ _ _ _ _ _ _ hfields =>
    rw [hfields, hw.map_name_newFields]
    exact hw.nodup
  | reused prior _ hprior' _ happended _ _ hfields =>
    have hkept := hw.nodup_append (hprior _ (priorOf_eq_some hprior').1)
    rw [hfields, happended, keptFields, List.map_map]
    exact hkept

end Synthesis

/-! ## Any number of lowerings -/

/-- What a unit that is lowered has of the fields of environments. -/
structure LoweredUnit.Told (x : ScopeTree × LowerOptions) (u : LoweredUnit) : Prop where
  /-- No two fields of a live layout have one name, whether the unit has its environment or not. -/
  live : ∀ e ∈ u.live, (e.2.fields.map LayoutField.name).Nodup
  /-- The fields of an environment are those of the variables of its plan. -/
  envs : ∃ a ps, Captures.analyze x.1 = .ok a ∧ planEnvironments x.1 a x.2 = .ok ps ∧
    ∀ e ∈ u.envs, ∃ p, ps.plans[e.plan]? = some p ∧ e.Tells p

namespace Stages

variable {t : ScopeTree} {options : LowerOptions} {baseline : Option Baseline} {u : LoweredUnit}
  {a : Captures} {ps : PlanTable} {s : Synthesis} {xs : List Settlement}

/-- Fields are told apart after a lowering if they were before. -/
theorem tells (h : Stages t options baseline u a ps s xs) (hn : t.WellNamed)
    (hprior : ∀ e ∈ priorLayouts baseline, e.2.Distinct) : u.Told (t, options) := by
  have hsettled (x : Settlement) (hx : x ∈ xs) : (x.env.fields.map EnvField.name).Nodup :=
    (h.account.settled x hx).nodup_fields (h.account.wanted hn h.plans hx) hprior
  refine ⟨fun e he => ?_, a, ps, h.analyzed, h.planned, fun e he => ?_⟩
  · rcases h.mem_live.mp he with ⟨x, hx, rfl⟩ | ⟨hkept, -⟩
    · exact EnvType.distinct_layout.mpr (hsettled x hx)
    · exact hprior e hkept
  · obtain ⟨x, hx, rfl⟩ := h.exists_settlement he
    obtain ⟨i, hi, -⟩ := h.account.exists_position hx
    have hplan : x.env.plan = i := by
      rw [(h.account.settled x hx).env]
      exact h.plans.linking.placed.plan_id i x.plan hi
    have hfields := (h.account.settled x hx).hasFields (h.account.wanted hn h.plans hx)
      (nodup_slots h.plans hi)
    exact ⟨x.plan, hplan ▸ hi, hfields.tells (hsettled x hx)⟩

end Stages

/-- Over any number of lowerings fields are told apart. -/
theorem told_of_lowerChain : ∀ {steps : List (ScopeTree × LowerOptions)}
    {baseline : Option Baseline} {us : List LoweredUnit},
    (∀ e ∈ priorLayouts baseline, e.2.Distinct) → (∀ x ∈ steps, x.1.Sound) →
    lowerChain baseline steps = .ok us → List.Forall₂ (fun x u => u.Told x) steps us
  | [], _, us, _, _, hus => by
    cases hus
    exact .nil
  | x :: steps, baseline, us, hprior, hsteps, hus => by
    obtain ⟨u, hu, hus⟩ := Lower.bind_eq_ok.mp hus
    obtain ⟨vs, hvs, hus⟩ := Lower.bind_eq_ok.mp hus
    cases hus
    obtain ⟨⟨holds, hw⟩, hn⟩ := hsteps x List.mem_cons_self
    obtain ⟨a, ps, s, xs, h⟩ := exists_stages hw hu
    have htold := h.tells hn hprior
    have hnext (e : NamedLayout) (he : e ∈ priorLayouts (some u.nextBaseline)) : e.2.Distinct :=
      htold.live e (Stages.mem_live_of_nextBaseline he)
    exact .cons htold
      (told_of_lowerChain hnext (fun y hy => hsteps y (List.mem_cons_of_mem _ hy)) hvs)

/-- Names without the sign in front of a count give fields of different names, which stay when more
names follow. So when the sources that a unit has had are lowered one after another with any
options, each with what the one before leaves, the fields of every environment have different names,
and every variable of its plan has one of them. -/
theorem fields_told : (∀ names : List String, (∀ n ∈ names, '$' ∉ n.toList) → Name.Told names) ∧
    ∀ (unit : String) (steps : List (ScopeTree × LowerOptions)) (us : List LoweredUnit),
      (∀ x ∈ steps, ∃ source m, Syntax.parse source = .ok m ∧ bindModule m unit = .ok x.1) →
      lowerChain none steps = .ok us → List.Forall₂ (fun x u => u.Told x) steps us := by
  refine ⟨fun names h => Name.told h, fun unit steps us hsteps hus => ?_⟩
  refine told_of_lowerChain (fun e he => absurd he List.not_mem_nil) (fun x hx => ?_) hus
  obtain ⟨source, m, hm, ht⟩ := hsteps x hx
  exact sound_of_source hm ht

/-- The fields of the text of a source with a closure are told apart, when it is lowered twice with
different options; and so are those of three variables of which two share a name. -/
theorem fields_told_captureText : Name.Told ["x", "y", "x"] ∧
    ∃ m t us, Syntax.parse Syntax.captureText = .ok m ∧ bindModule m "u" = .ok t ∧
      lowerChain none [(t, ⟨.contained, true⟩), (t, ⟨.never, false⟩)] = .ok us ∧
      List.Forall₂ (fun x u => u.Told x) [(t, ⟨.contained, true⟩), (t, ⟨.never, false⟩)] us := by
  have hlowered : ((Syntax.parse Syntax.captureText).toOption.bind fun m =>
      (bindModule m "u").toOption.bind fun t =>
        (lowerChain none [(t, ⟨.contained, true⟩), (t, ⟨.never, false⟩)]).toOption).isSome =
      true := by
    rw [Syntax.parse_captureText]
    decide +kernel
  obtain ⟨us, hus⟩ := Option.isSome_iff_exists.mp hlowered
  obtain ⟨m, hm, hus⟩ := Option.bind_eq_some_iff.mp hus
  obtain ⟨t, ht, hus⟩ := Option.bind_eq_some_iff.mp hus
  rw [Lower.toOption_eq_some] at hm ht hus
  refine ⟨fields_told.1 _ (by decide), m, t, us, hm, ht, hus,
    fields_told.2 "u" _ us (fun x hx => ?_) hus⟩
  have heq : x.1 = t := by
    rcases List.mem_pair.mp hx with rfl | rfl <;> rfl
  exact ⟨_, m, hm, heq ▸ ht⟩

end ClosureEnv
