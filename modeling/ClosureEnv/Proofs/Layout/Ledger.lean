import ClosureEnv.Proofs.Binding.Source
import ClosureEnv.Proofs.Lowered.Sound

/-!
# Every prior layout is accounted for

Lowering with a baseline goes over the plans and then over what is left of the baseline; the two are
joined by the texts of identities only. `Ledger` says that this neither loses nor doubles a layout:
each has one record, of what became of it, and goes on to the next baseline, to the history or both,
as the record says (`lowerUnit_ledger`). It rests on identities being different for different plans,
on their texts telling them apart, and on `originExists` reading the texts as they are written
(`originExists_iff`).
-/

namespace ClosureEnv

/-! ## Texts of identities -/

/-- The texts of identities tell them apart. -/
theorem EnvIdentity.text_inj {i j : EnvIdentity} (h : i.text = j.text) : i = j := by
  have hl := congrArg String.toList h
  cases i <;> cases j <;> simp only [EnvIdentity.text, String.toList_append] at hl
  case scope.scope => rw [String.toList_inj.mp (List.append_cancel_left hl)]
  case static.static => rfl
  case staticGeneric.staticGeneric => rw [String.toList_inj.mp (List.append_cancel_left hl)]
  all_goals simp at hl

/-- An identity whose origin is in the unit: a scope or a function that the unit has, or the
identity that all units share. -/
inductive Standing (t : ScopeTree) : String → Prop where
  | scope (s : ScopeId) (sc : Scope) : t.scopes[s]? = some sc →
      Standing t (EnvIdentity.scope sc.key).text
  | static : Standing t EnvIdentity.static.text
  | staticGeneric (f : FnId) (fn : Function) : t.fns[f]? = some fn →
      Standing t (EnvIdentity.staticGeneric fn.name).text

namespace Synthesis

/-- What follows a prefix, if it is one. -/
theorem stripPrefix?_eq_some {front text rest : String} :
    stripPrefix? front text = some rest ↔ text = front ++ rest := by
  unfold stripPrefix?
  rw [Option.ite_none_right_eq_some, List.isPrefixOf_iff_prefix, Option.some.injEq]
  constructor
  · rintro ⟨⟨rest', hrest⟩, rfl⟩
    rw [← String.toList_inj, String.toList_append, String.toList_ofList, ← hrest,
      List.drop_left]
  · rintro rfl
    rw [String.toList_append, List.drop_left, String.ofList_toList]
    exact ⟨List.prefix_append _ _, rfl⟩

/-- The texts of static identities are not those of scopes. -/
theorem stripPrefix?_scope_static (fn : String) : stripPrefix? "scope:" ("static:" ++ fn) = none := by
  rw [Option.eq_none_iff_forall_ne_some]
  intro rest hrest
  have hl := congrArg String.toList (stripPrefix?_eq_some.mp hrest)
  simp [String.toList_append] at hl

/-- What is read off the text of an identity. -/
theorem originExists_text (t : ScopeTree) (i : EnvIdentity) : originExists t i.text =
    match i with
    | .scope key => (t.findScope? key).isSome
    | .static => true
    | .staticGeneric fn => t.fns.any (·.name == fn) := by
  cases i with
  | scope key =>
    have hscope : stripPrefix? "scope:" ("scope:" ++ key) = some key := stripPrefix?_eq_some.mpr rfl
    simp only [originExists, EnvIdentity.text, hscope]
  | static => rfl
  | staticGeneric fn =>
    have hstatic : stripPrefix? "static:" ("static:" ++ fn) = some fn :=
      stripPrefix?_eq_some.mpr rfl
    simp only [originExists, EnvIdentity.text, stripPrefix?_scope_static, hstatic]

/-- Only texts of identities have an origin. -/
theorem exists_identity_of_originExists {t : ScopeTree} {text : String}
    (h : originExists t text = true) : ∃ i : EnvIdentity, text = i.text := by
  unfold originExists at h
  split at h
  · next key hkey => exact ⟨.scope key, stripPrefix?_eq_some.mp hkey⟩
  · split at h
    · next fn hfn => exact ⟨.staticGeneric fn, stripPrefix?_eq_some.mp hfn⟩
    · exact ⟨.static, beq_iff_eq.mp h⟩

/-- Reading the text of an identity tells whether its origin is in the unit. -/
theorem originExists_iff (t : ScopeTree) (i : String) : originExists t i = true ↔ Standing t i := by
  constructor
  · intro h
    obtain ⟨i, rfl⟩ := exists_identity_of_originExists h
    rw [originExists_text] at h
    cases i with
    | scope key =>
      obtain ⟨sc, hsc, hkey⟩ := Array.find?_isSome.mp h
      obtain ⟨s, hs⟩ := Array.mem_iff_getElem?.mp hsc
      exact beq_iff_eq.mp hkey ▸ .scope s sc hs
    | static => exact .static
    | staticGeneric fn =>
      obtain ⟨f, hf, hname⟩ := Array.any_eq_true'.mp h
      obtain ⟨j, hj⟩ := Array.mem_iff_getElem?.mp hf
      exact beq_iff_eq.mp hname ▸ .staticGeneric j f hj
  · rintro (⟨s, sc, hs⟩ | _ | ⟨f, fn, hf⟩) <;> rw [originExists_text]
    · exact Array.find?_isSome.mpr ⟨sc, Array.mem_of_getElem? hs, beq_self_eq_true _⟩
    · exact Array.any_eq_true'.mpr ⟨fn, Array.mem_of_getElem? hf, beq_self_eq_true _⟩

end Synthesis

/-! ## Records -/

/-- Whether a record is of a layout that was superseded. -/
def Transition.isSuperseded : Transition → Bool
  | superseded .. => true
  | created .. | unchanged .. | extended .. | carried .. | retired .. => false

/-- Whether a record is of a layout that was retired. -/
def Transition.isRetired : Transition → Bool
  | retired .. => true
  | created .. | unchanged .. | extended .. | superseded .. | carried .. => false

namespace Report

/-- The records of an identity. -/
def records (r : Report) (i : String) : List (String × Transition) :=
  r.transitions.filter (·.1 == i)

/-- Whether the layout of an identity was superseded. -/
def supersedes (r : Report) (i : String) : Bool :=
  (r.records i).any (·.2.isSuperseded)

/-- Whether the layout of an identity was retired. -/
def retires (r : Report) (i : String) : Bool :=
  (r.records i).any (·.2.isRetired)

end Report

/-- The record that is due to a layout `l` that the identity `i` had. -/
inductive Due (t : ScopeTree) (u : LoweredUnit) (i : String) (l : Layout) : Transition → Prop where
  | unchanged (e : EnvType) : e ∈ u.envs → e.identity.text = i → e.name = l.name →
      Due t u i l (.unchanged l.name)
  | extended (e : EnvType) (appended : List String) : e ∈ u.envs → e.identity.text = i →
      e.name = l.name → appended ≠ [] → Due t u i l (.extended l.name appended)
  | superseded (e : EnvType) (reason : Change) : e ∈ u.envs → e.identity.text = i →
      Due t u i l (.superseded l.name e.name reason)
  | carried : (∀ e ∈ u.envs, e.identity.text ≠ i) → Standing t i → Due t u i l (.carried l.name)
  | retired : (∀ e ∈ u.envs, e.identity.text ≠ i) → ¬ Standing t i → Due t u i l (.retired l.name)

/-- What becomes of the layouts of a baseline when a unit with the plans `ps` is lowered. -/
structure Ledger (t : ScopeTree) (ps : PlanTable) (b : Baseline) (u : LoweredUnit) : Prop where
  /-- The unit produces the identities of the plans. -/
  produced : u.envs.map EnvType.identity = ps.plans.toList.map Plan.identity
  /-- Each prior layout has the one record that is due to it. -/
  prior : ∀ e ∈ b.envs, ∃ x, u.report.records e.1 = [(e.1, x)] ∧ Due t u e.1 e.2 x
  /-- What is produced and was not there has one record, which says that it was created. -/
  created : ∀ e ∈ u.envs, (∀ l, (e.identity.text, l) ∉ b.envs) →
    u.report.records e.identity.text = [(e.identity.text, .created e.name)]
  /-- There are no other records. -/
  only : ∀ r ∈ u.report.transitions,
    (∃ e ∈ u.envs, r.1 = e.identity.text) ∨ ∃ l, (r.1, l) ∈ b.envs
  /-- The next baseline has the layouts that were produced, and as they were those of other
  identities whose origin is still there. -/
  live : ∀ e, e ∈ u.nextBaseline.envs ↔ (∃ f ∈ u.envs, e = (f.identity.text, f.layout)) ∨
    (e ∈ b.envs ∧ (∀ f ∈ u.envs, f.identity.text ≠ e.1) ∧ Standing t e.1)
  /-- Each identity is there once. -/
  sorted : u.nextBaseline.envs.Sorted
  /-- All of them are live. -/
  active : ∀ e ∈ u.nextBaseline.envs, e.2.state = .active
  /-- The history goes on with what was superseded, in the order of the plans, and then with what
  was retired, in the order of the identities. -/
  history : u.nextBaseline.history = b.history
    ++ (ps.plans.toList.filterMap fun p =>
      if u.report.supersedes p.identity.text then
        (b.envs.find? p.identity.text).map fun l =>
          (p.identity.text, { l with state := .superseded })
      else none)
    ++ (b.envs.filter (u.report.retires ·.1)).map fun e => (e.1, { e.2 with state := .retired })

namespace Synthesis

/-- What one key has in pairs with different keys. -/
theorem filter_key_eq {α β : Type} [BEq α] [LawfulBEq α] {xs : List (α × β)}
    (hn : (xs.map Prod.fst).Nodup) {k : α} {v : β} (h : (k, v) ∈ xs) :
    xs.filter (·.1 == k) = [(k, v)] := by
  induction xs with
  | nil => cases h
  | cons x xs ih =>
    rw [List.map_cons, List.nodup_cons] at hn
    rcases List.mem_cons.mp h with rfl | h
    · rw [List.filter_cons, if_pos (beq_self_eq_true k), List.filter_eq_nil_iff.mpr]
      exact fun y hy heq => hn.1 (List.mem_map.mpr ⟨y, hy, beq_iff_eq.mp heq⟩)
    · have hne : x.1 ≠ k := fun heq => hn.1 (List.mem_map.mpr ⟨_, h, heq.symm⟩)
      rw [List.filter_cons_of_neg (by simpa using hne), ih hn.2 h]

variable {t : ScopeTree} {ps : PlanTable} {options : LowerOptions} {b : Baseline}
  {generation : Nat} {s : Synthesis} {xs : List Settlement}

/-- The environment of a plan whose identity the baseline does not have is new. -/
theorem Settled.transition_of_new {x : Settlement}
    (h : Settled t options (some b) generation x)
    (hnew : b.envs.find? x.plan.identity.text = none) :
    x.transition = .created x.env.name ∧ x.superseded? = none := by
  have hprior : priorOf (some b) x.plan = none := by
    rw [priorOf, Option.bind_some, Baseline.active?, hnew]
    rfl
  cases h.outcome with
  | minted count after _ hdecision =>
    simp only [Settlement.transition, Settlement.superseded?, hdecision, and_self]
  | reused prior appended hprior' => cases hprior.symm.trans hprior'
  | superseded prior reason count after hprior' => cases hprior.symm.trans hprior'

/-- The environment of a plan whose identity has a live layout takes that over or supersedes it. -/
theorem Settled.transition_of_prior {x : Settlement}
    (h : Settled t options (some b) generation x) {l : Layout}
    (hl : b.envs.find? x.plan.identity.text = some l) (hactive : l.state = .active) :
    (x.transition = .unchanged l.name ∧ x.env.name = l.name ∧ x.superseded? = none) ∨
      (∃ appended, appended ≠ [] ∧ x.transition = .extended l.name appended ∧
        x.env.name = l.name ∧ x.superseded? = none) ∨
      ∃ reason, x.transition = .superseded l.name x.env.name reason ∧
        x.superseded? = some (x.plan.identity.text, { l with state := .superseded }) := by
  have hprior : priorOf (some b) x.plan = some l := by
    rw [priorOf, Option.bind_some, Baseline.active?, hl, Option.filter_some,
      if_pos (beq_iff_eq.mpr hactive)]
  unfold Settlement.transition Settlement.superseded?
  cases h.outcome with
  | minted count after hprior' => cases hprior.symm.trans hprior'
  | reused prior appended hprior' _ _ hdecision hname =>
    cases hprior.symm.trans hprior'
    rw [hdecision]
    dsimp only
    split
    · exact .inl ⟨rfl, hname, rfl⟩
    · next hne =>
      refine .inr (.inl ⟨_, fun hnil => hne ?_, rfl, hname, rfl⟩)
      rw [List.map_eq_nil_iff.mp hnil]
      rfl
  | superseded prior reason count after hprior' _ hdecision =>
    cases hprior.symm.trans hprior'
    rw [hdecision]
    exact .inr (.inr ⟨reason, rfl, rfl⟩)

namespace Account

/-- Different plans have different identities. -/
theorem nodup_produced (hn : t.WellNamed) (hps : ps.Sound t) : (producedBy ps).Nodup := by
  unfold producedBy
  rw [List.nodup_iff_getElem?_ne_getElem?]
  intro i j hij hj heq
  rw [List.length_map] at hj
  rw [List.getElem?_map, List.getElem?_map, List.getElem?_eq_getElem hj,
    List.getElem?_eq_getElem (Nat.lt_trans hij hj), Option.map_some, Option.map_some,
    Option.some.injEq] at heq
  refine Nat.ne_of_lt hij (hps.identity hn i j _ _ ?_ ?_ (EnvIdentity.text_inj heq))
  · rw [← Array.getElem?_toList, List.getElem?_eq_getElem (Nat.lt_trans hij hj)]
  · rw [← Array.getElem?_toList, List.getElem?_eq_getElem hj]

/-- What is left of a baseline whose layouts are all live. -/
theorem mem_leftOf (baseline : Option Baseline)
    (hactive : ∀ e ∈ priorLayouts baseline, e.2.state = .active) {e : NamedLayout} :
    e ∈ leftOf ps baseline ↔ e ∈ priorLayouts baseline ∧ e.1 ∉ producedBy ps := by
  unfold leftOf isLeft
  rw [List.mem_filter, Bool.and_eq_true, Bool.not_eq_true', List.contains_eq_mem,
    decide_eq_false_iff_not, beq_iff_eq]
  exact ⟨fun ⟨he, hnot, _⟩ => ⟨he, hnot⟩, fun ⟨he, hnot⟩ => ⟨he, hnot, hactive e he⟩⟩

section

variable {baseline : Option Baseline} (h : Account t ps options baseline s xs)
include h

/-- The identities of settlements are those that are produced. -/
theorem map_identity : xs.map (·.plan.identity.text) = producedBy ps := by
  rw [producedBy, ← h.plans, List.map_map]
  rfl

/-- The identities of environments are those of their plans. -/
theorem identity_env {x : Settlement} (hx : x ∈ xs) : x.env.identity = x.plan.identity := by
  rw [(h.settled x hx).env]
  rfl

/-- A settlement is of a produced identity. -/
theorem mem_producedBy {i : String} :
    i ∈ producedBy ps ↔ ∃ x ∈ xs, x.plan.identity.text = i := by
  rw [← h.map_identity, List.mem_map]

end

section

variable (h : Account t ps options (some b) s xs)
include h

variable (hn : t.WellNamed) (hps : ps.Sound t) (hsorted : SortedMap.Sorted b.envs)
  (hactive : ∀ e ∈ b.envs, e.2.state = .active)
include hn hps hsorted hactive

/-- No identity has two records. -/
theorem nodup_records : (s.report.transitions.map Prod.fst).Nodup := by
  rw [h.transitions, List.map_append, List.map_map, List.map_map, List.nodup_append]
  refine ⟨h.map_identity ▸ nodup_produced hn hps, ?_, fun i hi j hj hij => ?_⟩
  · refine hsorted.nodup_keys.sublist (List.Sublist.map Prod.fst ?_)
    exact List.filter_sublist
  · obtain ⟨e, he, rfl⟩ := List.mem_map.mp hj
    have hproduced : i ∈ producedBy ps := h.map_identity ▸ hi
    rw [hij] at hproduced
    exact ((mem_leftOf (some b) hactive).mp he).2 hproduced

/-- The record of a settlement is the only one of its identity. -/
theorem records_of_settlement {x : Settlement} (hx : x ∈ xs) :
    s.report.records x.plan.identity.text = [(x.plan.identity.text, x.transition)] := by
  refine filter_key_eq (h.nodup_records hn hps hsorted hactive) ?_
  rw [h.transitions]
  exact List.mem_append_left _ (List.mem_map.mpr ⟨x, hx, rfl⟩)

/-- The record of a layout that is left is the only one of its identity. -/
theorem records_of_left {e : NamedLayout} (he : e ∈ leftOf ps (some b)) :
    s.report.records e.1 = [leaving t e] := by
  refine filter_key_eq (h.nodup_records hn hps hsorted hactive) ?_
  rw [h.transitions]
  exact List.mem_append_right _ (List.mem_map.mpr ⟨e, he, rfl⟩)

/-- Superseded layouts are told by the report, in the order of the plans. -/
theorem superseded_eq : xs.filterMap Settlement.superseded? = ps.plans.toList.filterMap fun p =>
    if s.report.supersedes p.identity.text then
      (b.envs.find? p.identity.text).map fun l =>
        (p.identity.text, { l with state := .superseded })
    else none := by
  rw [← h.plans, List.filterMap_map]
  refine List.filterMap_congr fun x hx => ?_
  rw [Function.comp_apply, Report.supersedes, h.records_of_settlement hn hps hsorted hactive hx]
  cases hl : b.envs.find? x.plan.identity.text with
  | none => simp [(h.settled x hx).transition_of_new hl, Transition.isSuperseded]
  | some l =>
    have hmem := SortedMap.mem_of_find? hl
    rcases (h.settled x hx).transition_of_prior hl (hactive _ hmem) with
      ⟨htr, -, hsup⟩ | ⟨appended, -, htr, -, hsup⟩ | ⟨reason, htr, hsup⟩ <;>
      simp [htr, hsup, Transition.isSuperseded]

/-- Retired layouts are told by the report, in the order of the identities. -/
theorem retired_eq : ((leftOf ps (some b)).filter (!originExists t ·.1)).map retire =
    (b.envs.filter (s.report.retires ·.1)).map fun e => (e.1, { e.2 with state := .retired }) := by
  rw [leftOf, priorLayouts, Option.map_some, Option.getD_some, List.filter_filter]
  refine congrArg (List.map retire) (List.filter_congr fun e he => ?_)
  by_cases hleft : e.1 ∈ producedBy ps
  · obtain ⟨x, hx, heq⟩ := h.mem_producedBy.mp hleft
    have hl : b.envs.find? x.plan.identity.text = some e.2 := heq ▸ hsorted.mem_iff.mp he
    have hnot : isLeft (producedBy ps) e = false := by
      simp [isLeft, hleft]
    rw [hnot, Report.retires, ← heq, h.records_of_settlement hn hps hsorted hactive hx]
    rcases (h.settled x hx).transition_of_prior hl (hactive _ he) with
      ⟨htr, -⟩ | ⟨appended, -, htr, -⟩ | ⟨reason, htr, -⟩ <;>
      simp [htr, Transition.isRetired]
  · have hmem := (mem_leftOf (some b) hactive).mpr ⟨he, hleft⟩
    rw [Report.retires, h.records_of_left hn hps hsorted hactive hmem,
      (List.mem_filter.mp hmem).2]
    cases horigin : originExists t e.1 <;> simp [leaving, horigin, Transition.isRetired]

end

end Account

/-- No identity is both that of an environment and of a layout that is carried on, or of two of
either. -/
theorem Account.nodup_identities {baseline : Option Baseline}
    (h : Account t ps options baseline s xs) (hn : t.WellNamed) (hps : ps.Sound t)
    (hsorted : SortedMap.Sorted (priorLayouts baseline)) :
    (xs.map (fun x => x.env.identity.text) ++ s.carried.map Prod.fst).Nodup := by
  have hfirst : xs.map (fun x => x.env.identity.text) = producedBy ps := by
    rw [← h.map_identity]
    exact List.map_congr_left fun x hx => by rw [h.identity_env hx]
  rw [h.carried, List.nodup_append]
  refine ⟨hfirst ▸ nodup_produced hn hps, ?_, fun i hi j hj hij => ?_⟩
  · exact hsorted.nodup_keys.sublist
      (List.Sublist.map Prod.fst (List.filter_sublist.trans List.filter_sublist))
  · obtain ⟨e, he, rfl⟩ := List.mem_map.mp hj
    have hleft := (List.mem_filter.mp (List.mem_filter.mp he).1).2
    have hproduced : e.1 ∈ producedBy ps := hfirst ▸ hij ▸ hi
    simp [isLeft, hproduced] at hleft

namespace Account

section

variable (h : Account t ps options (some b) s xs) {u : LoweredUnit}
  (hu : Lowered.Scheme.UnitOf ⟨t, ps, s⟩ u)
include h hu

/-- The environments of a unit are those of the settlements. -/
theorem mem_envs {e : EnvType} : e ∈ u.envs ↔ ∃ x ∈ xs, x.env = e := by
  rw [hu.envs, h.envs, List.mem_map]

/-- The identities that are produced are those of the environments of the unit. -/
theorem mem_producedBy_iff {i : String} :
    i ∈ producedBy ps ↔ ∃ e ∈ u.envs, e.identity.text = i := by
  rw [h.mem_producedBy]
  constructor
  · rintro ⟨x, hx, rfl⟩
    exact ⟨x.env, (h.mem_envs hu).mpr ⟨x, hx, rfl⟩, by rw [h.identity_env hx]⟩
  · rintro ⟨e, he, rfl⟩
    obtain ⟨x, hx, rfl⟩ := (h.mem_envs hu).mp he
    exact ⟨x, hx, by rw [h.identity_env hx]⟩

/-- What is not produced is not the identity of any environment of the unit. -/
theorem not_mem_producedBy_iff {i : String} :
    i ∉ producedBy ps ↔ ∀ e ∈ u.envs, e.identity.text ≠ i := by
  rw [h.mem_producedBy_iff hu]
  exact ⟨fun hne e he heq => hne ⟨e, he, heq⟩, fun hne ⟨e, he, heq⟩ => hne e he heq⟩

/-- The record of a settlement is the one that is due to the layout that its identity had. -/
theorem due_of_settlement {x : Settlement} (hx : x ∈ xs) {l : Layout}
    (hl : b.envs.find? x.plan.identity.text = some l) (hactive : l.state = .active) :
    Due t u x.plan.identity.text l x.transition := by
  have hmem : x.env ∈ u.envs := (h.mem_envs hu).mpr ⟨x, hx, rfl⟩
  have hident : x.env.identity.text = x.plan.identity.text := by
    rw [h.identity_env hx]
  rcases (h.settled x hx).transition_of_prior hl hactive with
    ⟨htr, hname, -⟩ | ⟨appended, hne, htr, hname, -⟩ | ⟨reason, htr, -⟩
  · exact htr ▸ .unchanged x.env hmem hident hname
  · exact htr ▸ .extended x.env appended hmem hident hname hne
  · exact htr ▸ .superseded x.env reason hmem hident

/-- The record of a layout that is left is the one that is due to it. -/
theorem due_of_left {e : NamedLayout} (hleft : e.1 ∉ producedBy ps) :
    Due t u e.1 e.2 (leaving t e).2 := by
  rw [h.not_mem_producedBy_iff hu] at hleft
  unfold leaving
  split
  · next horigin => exact .carried hleft ((originExists_iff t e.1).mp horigin)
  · next horigin => exact .retired hleft fun hs => horigin ((originExists_iff t e.1).mpr hs)

/-- What is carried on are the layouts of other identities whose origin is still there. -/
theorem mem_carried_iff (hactive : ∀ e ∈ b.envs, e.2.state = .active) {e : NamedLayout} :
    e ∈ u.carried ↔ e ∈ b.envs ∧ (∀ f ∈ u.envs, f.identity.text ≠ e.1) ∧ Standing t e.1 := by
  rw [hu.carried, h.carried, List.mem_filter, mem_leftOf (some b) hactive, originExists_iff,
    and_assoc, h.not_mem_producedBy_iff hu]
  rfl

variable (hn : t.WellNamed) (hps : ps.Sound t) (hsorted : SortedMap.Sorted b.envs)
include hn hps hsorted

/-- The next baseline has what was produced and what was carried on. -/
theorem mem_nextBaseline_iff {e : NamedLayout} : e ∈ u.nextBaseline.envs ↔
    (∃ f ∈ u.envs, e = (f.identity.text, f.layout)) ∨ e ∈ u.carried := by
  have hkeys : ((u.envs.map fun e => (e.identity.text, e.layout)) ++ u.carried).map Prod.fst
      |>.Nodup := by
    rw [List.map_append, List.map_map, hu.envs, h.envs, List.map_map, hu.carried]
    exact h.nodup_identities hn hps hsorted
  rw [LoweredUnit.nextBaseline, SortedMap.mem_ofList_iff hkeys, List.mem_append, List.mem_map]
  simp only [eq_comm]

variable (hactive : ∀ e ∈ b.envs, e.2.state = .active)
include hactive

/-- A prior layout has one record, the one that is due to it. -/
theorem exists_due {e : NamedLayout} (he : e ∈ b.envs) :
    ∃ x, s.report.records e.1 = [(e.1, x)] ∧ Due t u e.1 e.2 x := by
  by_cases hleft : e.1 ∈ producedBy ps
  · obtain ⟨x, hx, heq⟩ := h.mem_producedBy.mp hleft
    have hl : b.envs.find? x.plan.identity.text = some e.2 := heq ▸ hsorted.mem_iff.mp he
    exact ⟨x.transition, heq ▸ h.records_of_settlement hn hps hsorted hactive hx,
      heq ▸ h.due_of_settlement hu hx hl (hactive e he)⟩
  · have hmem := (mem_leftOf (some b) hactive).mpr ⟨he, hleft⟩
    exact ⟨_, h.records_of_left hn hps hsorted hactive hmem, h.due_of_left hu hleft⟩

/-- An environment whose identity the baseline does not have has one record: it was created. -/
theorem records_created {e : EnvType} (he : e ∈ u.envs)
    (hnew : ∀ l, (e.identity.text, l) ∉ b.envs) :
    s.report.records e.identity.text = [(e.identity.text, .created e.name)] := by
  obtain ⟨x, hx, rfl⟩ := (h.mem_envs hu).mp he
  rw [h.identity_env hx] at hnew ⊢
  have hl : b.envs.find? x.plan.identity.text = none := by
    rw [Option.eq_none_iff_forall_ne_some]
    exact fun l hl => hnew l (SortedMap.mem_of_find? hl)
  rw [h.records_of_settlement hn hps hsorted hactive hx,
    ((h.settled x hx).transition_of_new hl).1]

end

/-- The account of a synthesis is a ledger. -/
theorem ledger (h : Account t ps options (some b) s xs) (hn : t.WellNamed) (hps : ps.Sound t)
    (hsorted : SortedMap.Sorted b.envs) (hactive : ∀ e ∈ b.envs, e.2.state = .active)
    {u : LoweredUnit} (hu : Lowered.Scheme.UnitOf ⟨t, ps, s⟩ u) : Ledger t ps b u := by
  have hreport : u.report = s.report := hu.report
  constructor
  · rw [hu.envs, h.envs, ← h.plans, List.map_map, List.map_map]
    exact List.map_congr_left fun x hx => h.identity_env hx
  · exact fun e he => hreport ▸ h.exists_due hu hn hps hsorted hactive he
  · exact fun e he hnew => hreport ▸ h.records_created hu hn hps hsorted hactive he hnew
  · intro r hr
    rw [hreport, h.transitions, List.mem_append] at hr
    rcases hr with hr | hr
    · obtain ⟨x, hx, rfl⟩ := List.mem_map.mp hr
      exact .inl ⟨x.env, (h.mem_envs hu).mpr ⟨x, hx, rfl⟩, by rw [h.identity_env hx]; rfl⟩
    · obtain ⟨e, he, rfl⟩ := List.mem_map.mp hr
      exact .inr ⟨e.2, ((mem_leftOf (some b) hactive).mp he).1⟩
  · exact fun e => by
      rw [h.mem_nextBaseline_iff hu hn hps hsorted, h.mem_carried_iff hu hactive]
  · exact SortedMap.sorted_ofList _
  · intro e he
    rcases (h.mem_nextBaseline_iff hu hn hps hsorted).mp he with ⟨f, -, rfl⟩ | he
    · rfl
    · exact hactive e ((h.mem_carried_iff hu hactive).mp he).1
  · rw [LoweredUnit.nextBaseline, hu.history, h.history, hreport,
      h.superseded_eq hn hps hsorted hactive, h.retired_eq hn hps hsorted hactive]
    rfl

end Account

end Synthesis

/-- What a generation before could have left of `Syntax.captureSource`: a layout of a scope that is
gone, that of `main`, and the shared one, which no closure uses any more. -/
def captureBaseline : Baseline :=
  let layout (name : String) (kind : Representation) (fields : List LayoutField) : Layout :=
    ⟨name, kind, fields, none, fields.isEmpty, kind == .value, 0, .active, ""⟩
  ⟨"u", 0, [("scope:gone", layout "<>Env1_0" .value [⟨"y", .int⟩]),
    ("scope:main", layout "<>Env0_1" .value [⟨"x", .int⟩]),
    ("static", layout Name.sharedStaticEnv .reference [])], []⟩

end ClosureEnv
