import ClosureEnv.Proofs.Layout.Generations
import ClosureEnv.Proofs.Layout.Fresh

/-!
# Synthesis with what it has left

A synthesis that starts from the layouts that an earlier one of the same plans has left makes the
same environments (`synthesize_again`). The layout of an environment has every field that is wanted,
with its type, so that each plan takes over the layout that it had (`Settled.makeEnv_again`), and
what was carried on is carried on. Names are taken in the order in which they were taken before, so
they are free, whatever they are: nothing is asked of the baseline that the earlier one started
from.
-/

namespace ClosureEnv

namespace Synthesis

variable {t : ScopeTree} {holds : VarId → ClosureId → Prop} {ps : PlanTable}
  {options : LowerOptions} {baseline : Option Baseline} {generation : Nat} {s : Synthesis}
  {xs : List Settlement}

/-! ## Fields -/

/-- No field that is wanted has changed its type. -/
theorem fieldChange?_eq_none {l : Layout} {fields : List LayoutField} :
    fieldChange? l fields = none ↔
      ∀ f ∈ fields, ∀ old, l.field? f.name = some old → old.ty = f.ty := by
  unfold fieldChange?
  rw [List.findSome?_eq_none_iff]
  refine forall₂_congr fun f _ => ?_
  rw [Option.bind_eq_none_iff]
  refine forall₂_congr fun old _ => ?_
  simp

/-- What is wanted fits a layout that is like it and whose fields have the types that are wanted. -/
theorem change?_of_alike {l : Layout} {d : DesiredLayout} (hkind : l.kind = d.kind)
    (hsingleton : l.isSingleton = d.isSingleton) (hexpandable : l.isExpandable = d.isExpandable)
    (hparent : l.parent = d.parent) (hfields : fieldChange? l d.fields = none) :
    change? l d = none := by
  simp [change?, hkind, hsingleton, hexpandable, parentChange?_eq_none.mpr hparent, hfields]

namespace Wanted

variable {p : Plan} {fields : List LayoutField}

/-- New fields are those that are wanted. -/
theorem map_newFields (h : Wanted p fields) :
    (newFields p fields).map (fun f => (⟨f.name, f.ty⟩ : LayoutField)) = fields := by
  rw [newFields, List.map_zipWith]
  refine List.ext_getElem (by simp [h.length]) fun i _ _ => ?_
  simp

/-- A new field has the variable that its name stands for. -/
theorem var_of_newFields (h : Wanted p fields) (hs : p.slots.Nodup) {g : EnvField}
    (hg : g ∈ newFields p fields) : g.var = slotOf p fields g.name := by
  obtain ⟨i, hi⟩ := List.mem_iff_getElem?.mp hg
  obtain ⟨f, v, hf, hv, rfl⟩ := List.getElem?_zipWith_eq_some.mp hi
  show some v = slotOf p fields f.name
  rw [← wantedName_getElem hs hv hf, h.slotOf_wantedName hs (List.mem_of_getElem? hv)]

end Wanted

namespace Settled

variable {x : Settlement} (h : Settled t options baseline generation x)
  (hw : Wanted x.plan x.fields)
include h hw

/-- The layout of an environment has every field that is wanted. -/
theorem field?_layout {f : LayoutField} (hf : f ∈ x.fields) :
    x.env.layout.field? f.name = some f := by
  -- The fields of a new layout are those that are wanted, in their order.
  have hmade (hnew : x.env.fields = newFields x.plan x.fields) :
      x.env.layout.field? f.name = some f := by
    have hfields : x.env.layout.fields = x.fields := by
      show x.env.fields.map _ = _
      rw [hnew, hw.map_newFields]
    rw [Layout.field?, hfields]
    exact Lowered.Scheme.find?_of_nodup hw.nodup hf
  cases h.outcome with
  | minted _ _ _ _ _ hnew => exact hmade hnew
  | superseded _ _ _ _ _ _ _ _ hnew => exact hmade hnew
  | reused prior appended _ hfit happended _ _ hkept =>
    have hfields : x.env.layout.fields = prior.fields ++ appended := by
      show x.env.fields.map _ = _
      rw [hkept, keptFields, List.map_map]
      exact List.map_id _
    rw [Layout.field?, hfields, List.find?_append]
    cases hold : prior.field? f.name with
    | some old =>
      -- the prior field has the type that is wanted, or the layout would not have been taken over
      have hty : old.ty = f.ty := by
        have hnone : fieldChange? prior x.fields = none := by
          simp only [change?] at hfit
          split at hfit; · cases hfit
          split at hfit; · cases hfit
          split at hfit; · cases hfit
          exact (Option.or_eq_none_iff.mp hfit).2
        exact fieldChange?_eq_none.mp hnone f hf old hold
      have hfind : prior.fields.find? (·.name == f.name) = some old := hold
      have hname : old.name = f.name := by simpa using List.find?_some hfind
      rw [hfind, Option.some_or]
      obtain ⟨_, _⟩ := old
      cases hname
      cases hty
      rfl
    -- A field that is appended is one that the prior layout has not got.
    | none =>
      rw [show prior.fields.find? (·.name == f.name) = none from hold, Option.none_or]
      have hmem : f ∈ appended := happended ▸ List.mem_filter.mpr ⟨hf, by simp [hold]⟩
      refine Lowered.Scheme.find?_of_nodup (hw.nodup.sublist (List.Sublist.map _ ?_)) hmem
      exact happended ▸ List.filter_sublist

/-- The layout of an environment, once it is taken over, gives its fields. -/
theorem keptFields_layout (hs : x.plan.slots.Nodup) :
    keptFields x.plan x.fields x.env.layout [] = x.env.fields := by
  have hvar : ∀ g ∈ x.env.fields, g.var = slotOf x.plan x.fields g.name := by
    cases h.outcome with
    | minted _ _ _ _ _ hnew => exact hnew ▸ fun g hg => hw.var_of_newFields hs hg
    | superseded _ _ _ _ _ _ _ _ hnew => exact hnew ▸ fun g hg => hw.var_of_newFields hs hg
    | reused prior appended _ _ _ _ _ hkept =>
      intro g hg
      obtain ⟨f, -, rfl⟩ := List.mem_map.mp (hkept ▸ hg)
      rfl
  rw [keptFields, List.append_nil]
  show (x.env.fields.map _).map _ = _
  rw [List.map_map]
  conv_rhs => rw [← List.map_id x.env.fields]
  refine List.map_congr_left fun g hg => ?_
  obtain ⟨name, ty, var⟩ := g
  exact congrArg (EnvField.mk name ty) (hvar _ hg).symm

/-- A plan takes over the layout that it had, as it is. -/
theorem decisionOn_again {b : Baseline} (hb : priorOf (some b) x.plan = some x.env.layout) :
    decisionOn options (some b) x.plan x.fields x.env.parent = .reuse x.env.layout [] := by
  have hfit : change? x.env.layout (x.desired options) = none := by
    rw [h.desired_eq]
    refine change?_of_alike rfl rfl rfl rfl (fieldChange?_eq_none.mpr fun f hf old hold => ?_)
    cases (h.field?_layout hw hf).symm.trans hold
    rfl
  have happended : (x.fields.filter fun f => (x.env.layout.field? f.name).isNone) = [] := by
    rw [List.filter_eq_nil_iff]
    intro f hf
    simp [h.field?_layout hw hf]
  have hdecide : decideLayout (some x.env.layout) (x.desired options) = .reuse x.env.layout [] := by
    simp only [decideLayout, hfit]
    exact congrArg _ happended
  rw [← hdecide, ← hb]
  rfl

/-- Making an environment again makes it as it was, and is recorded so. -/
theorem makeEnv_again (hp : Nameable t x.plan) (hs : x.plan.slots.Nodup) {b : Baseline}
    (hb : priorOf (some b) x.plan = some x.env.layout) (next : Nat) {st : State}
    (hparent : parentName st.envs x.plan = .ok x.env.parent)
    (hfree : x.env.name ∉ st.symbols.names) :
    makeEnv t options (some b) next x.plan st = .ok ((), { st with
      symbols := st.symbols.reserve x.env.name
      envs := st.envs.push x.env
      transitions := st.transitions ++ [(x.plan.identity.text, Transition.unchanged x.env.name)] }) := by
  obtain ⟨name, fs, m, st₁, hsettles, hrun⟩ := makeEnv_spec hp options (some b) next h.fields hparent
  rw [h.decisionOn_again hw hb] at hsettles
  cases hsettles
  have henv : envOf options x.plan x.env.layout.name
      (keptFields x.plan x.fields x.env.layout []) x.env.parent x.env.layout.mintedIn = x.env := by
    rw [h.keptFields_layout hw hs]
    exact h.env.symm
  rw [hrun, henv, declare_eq_ok.mpr ⟨show x.env.layout.name ∉ _ from hfree, rfl⟩]
  rfl

end Settled

/-! ## Names -/

/-- Names that can be taken one after another. -/
def Takeable : List String → SymbolTable → Prop
  | [], _ => True
  | name :: names, s => name ∉ s.names ∧ Takeable names (s.reserve name)

/-- The table after some names were taken. -/
def reserveAll (s : SymbolTable) (names : List String) : SymbolTable :=
  names.foldl SymbolTable.reserve s

/-- Names that were taken can be taken. -/
theorem Takes.takeable : ∀ {names : List String} {s s' : SymbolTable}, Takes names s s' →
    Takeable names s
  | [], _, _, _ => trivial
  | name :: names, s, s', h => by
    obtain ⟨hname, hnames⟩ := List.nodup_cons.mp h.nodup
    have hrest : Takes names (s.reserve name) s' := by
      refine ⟨by simp [h.table, SymbolTable.reserve], hnames, fun n hn hmem => ?_⟩
      rcases List.mem_cons.mp hmem with rfl | hmem
      · exact hname hn
      · exact h.free n (List.mem_cons_of_mem _ hn) hmem
    exact ⟨h.free name List.mem_cons_self, hrest.takeable⟩

/-- Some names can be taken before others. -/
theorem takeable_append {names more : List String} {s : SymbolTable} :
    Takeable (names ++ more) s ↔ Takeable names s ∧ Takeable more (reserveAll s names) := by
  induction names generalizing s with
  | nil => simp [Takeable, reserveAll]
  | cons name names ih => rw [List.cons_append, Takeable, Takeable, ih, and_assoc]; rfl

/-! ## What the next generation is given -/

/-- What is left to the next generation, as far as the plans and the layouts of `s` go: the layout
of each environment under its identity, and what was carried on. -/
structure Leaves (ps : PlanTable) (s : Synthesis) (xs : List Settlement) (b : Baseline) : Prop where
  /-- Each plan has the layout of its environment. -/
  prior : ∀ x ∈ xs, priorOf (some b) x.plan = some x.env.layout
  /-- The others are those that were carried on. -/
  carried : b.envs.filter (!(producedBy ps).contains ·.1) = s.carried
  /-- All are live. -/
  active : ∀ e ∈ b.envs, e.2.state = .active

/-- The name of a parent is known once its environment is made. -/
theorem parentName_append {envs : Array EnvType} (more : Array EnvType) {p : Plan}
    (hp : ∀ q, p.parent = some q → q < envs.size) :
    parentName (envs ++ more) p = parentName envs p := by
  unfold parentName
  cases hq : p.parent with
  | none => rfl
  | some q =>
    dsimp only
    rw [Array.getElem?_append_left (hp q hq)]

/-- Lambdas are named if their names can be taken. -/
theorem mapM_nameLambda_run (hw : t.WellBound holds) : ∀ {ks : List Closure} {st : State},
    (∀ k ∈ ks, k ∈ t.closures) → Takeable (ks.map (lambdaOf t)) st.symbols →
    ks.mapM (nameLambda t) st = .ok (ks.map fun k => (k.id, lambdaOf t k),
      { st with symbols := reserveAll st.symbols (ks.map (lambdaOf t)) })
  | [], st, _, _ => rfl
  | k :: ks, st, hks, htake => by
    obtain ⟨hk, hks⟩ := List.forall_mem_cons.mp hks
    obtain ⟨c, hc⟩ := Array.mem_iff_getElem?.mp hk
    have hrun := nameLambda_run hw hc st
    rw [declare_eq_ok.mpr ⟨htake.1, rfl⟩, ← hw.closure_id c k hc] at hrun
    rw [List.mapM_cons, Make.bind_of_ok hrun, Make.bind_of_ok (mapM_nameLambda_run hw hks htake.2)]
    rfl

/-- A live layout whose origin is there is carried on if it is none of those that were produced. -/
theorem carry_again {produced : List String} {e : NamedLayout} (hactive : e.2.state = .active)
    (horigin : e.1 ∉ produced → originExists t e.1 = true) (st : State)
    (hfree : e.1 ∉ produced → e.2.name ∉ st.symbols.names) :
    carry t produced e st = .ok (if produced.contains e.1 then (none, st) else
      (some e, { st with
        symbols := st.symbols.reserve e.2.name
        transitions := st.transitions ++ [(e.1, .carried e.2.name)] })) := by
  rw [carry_run]
  by_cases hproduced : e.1 ∈ produced
  · rw [if_pos (by simp [isLeft, hproduced]), if_pos (by simp [hproduced])]
  · rw [if_neg (by simp [isLeft, hproduced, hactive]), if_pos (horigin hproduced),
      if_neg (by simp [hproduced]), declare_eq_ok.mpr ⟨hfree hproduced, rfl⟩, leaving,
      if_pos (horigin hproduced)]
    rfl

/-- Layouts are carried on that are none of those that were produced. -/
theorem filterMapM_carry_again {produced : List String} : ∀ {es : List NamedLayout} (st : State),
    (∀ e ∈ es, e.2.state = .active) →
    (∀ e ∈ es, e.1 ∉ produced → originExists t e.1 = true) →
    Takeable ((es.filter (!produced.contains ·.1)).map (·.2.name)) st.symbols →
    es.filterMapM (carry t produced) st = .ok (es.filter (!produced.contains ·.1), { st with
      symbols := reserveAll st.symbols ((es.filter (!produced.contains ·.1)).map (·.2.name))
      transitions := st.transitions ++
        (es.filter (!produced.contains ·.1)).map fun e => (e.1, .carried e.2.name) })
  | [], st, _, _, _ => by
    simp only [List.filter_nil, List.map_nil, List.append_nil]
    rfl
  | e :: es, st, hactive, horigin, htake => by
    obtain ⟨he, hes⟩ := List.forall_mem_cons.mp hactive
    obtain ⟨ho, hos⟩ := List.forall_mem_cons.mp horigin
    rw [List.filterMapM_cons]
    -- What this run produced is not carried, and everything else keeps its name.
    by_cases hproduced : e.1 ∈ produced
    · have hcarry := carry_again he ho st fun hnot => absurd hproduced hnot
      rw [if_pos (by simp [hproduced])] at hcarry
      rw [List.filter_cons_of_neg (by simp [hproduced])] at htake ⊢
      rw [Make.bind_of_ok hcarry]
      exact filterMapM_carry_again st hes hos htake
    · rw [List.filter_cons_of_pos (by simp [hproduced]), List.map_cons] at htake ⊢
      have hcarry := carry_again he ho st fun _ => htake.1
      rw [if_neg (by simp [hproduced])] at hcarry
      rw [Make.bind_of_ok hcarry]
      dsimp only
      rw [Make.bind_of_ok (filterMapM_carry_again _ hes hos htake.2)]
      simp only [List.map_cons, List.append_assoc, List.singleton_append]
      rfl

namespace Account

variable (h : Account t ps options baseline s xs) (hn : t.WellNamed) (hw : t.WellBound holds)
  (hps : ps.Sound t)
include h hn hw hps

/-- Environments are made again as they were. -/
theorem forM_makeEnv_again {b : Baseline} (hb : ∀ x ∈ xs, priorOf (some b) x.plan = some x.env.layout)
    (next : Nat) : ∀ {rest done : List Settlement} {st : State}, xs = done ++ rest →
    st.envs.toList = done.map Settlement.env → Takeable (rest.map (·.env.name)) st.symbols →
    (rest.map Settlement.plan).forM (makeEnv t options (some b) next) st = .ok ((), { st with
      symbols := reserveAll st.symbols (rest.map (·.env.name))
      envs := st.envs ++ (rest.map Settlement.env).toArray
      transitions := st.transitions ++
        rest.map fun x => (x.plan.identity.text, Transition.unchanged x.env.name) })
  | [], done, st, _, _, _ => by
    simp only [List.map_nil, List.append_nil, Array.append_empty]
    rfl
  | x :: rest, done, st, hsplit, henvs, htake => by
    have hx : x ∈ xs := by simp [hsplit]
    have hposition : ps.plans[done.length]? = some x.plan := by
      rw [← Array.getElem?_toList, ← h.plans, hsplit]
      simp
    have hsize : st.envs.size = done.length := by
      rw [← Array.length_toList, henvs, List.length_map]
    -- A parent comes first, so that its name is the one that the environments have in the end.
    have hparent : parentName st.envs x.plan = .ok x.env.parent := by
      have hall : s.envs = st.envs ++ ((x :: rest).map Settlement.env).toArray := by
        rw [← Array.toList_inj, h.envs, hsplit]
        simp [henvs]
      rw [← parentName_append ((x :: rest).map Settlement.env).toArray fun q hq => ?_, ← hall]
      · exact h.parents x hx
      · rw [hsize]
        exact hps.linking.parent_lt hw.preorder
          (PlanTable.parent?_eq_some.mpr ⟨x.plan, hposition, hq⟩)
    have hmade := (h.settled x hx).makeEnv_again (h.wanted hn hps hx) (nameable_of_sound hps hposition)
      (nodup_slots hps hposition) (hb x hx) next hparent htake.1
    have hsplit' : xs = (done ++ [x]) ++ rest := by simp [hsplit]
    have hmore : (st.envs.push x.env).toList = (done ++ [x]).map Settlement.env := by simp [henvs]
    rw [List.map_cons, List.forM, Make.bind_of_ok hmade,
      forM_makeEnv_again hb next hsplit' hmore htake.2]
    have henvs' : st.envs.push x.env ++ (rest.map Settlement.env).toArray =
        st.envs ++ (x.env :: rest.map Settlement.env).toArray := by
      rw [← Array.toList_inj]
      simp
    simp only [henvs', List.map_cons, List.append_assoc, List.singleton_append]
    rfl

/-- The steps of a synthesis that starts from what one of the same plans has left. -/
theorem makeAll_again {b : Baseline} (hb : Leaves ps s xs b) : ∃ symbols,
    (makeAll t ps options (some b) (nextGeneration (some b))).run
        ⟨sourceSymbols t, #[], 0, [], [], b.history⟩ =
      .ok ((s.lambdaNames, s.carried), ⟨symbols, s.envs, 0,
        xs.map (fun x => (x.plan.identity.text, Transition.unchanged x.env.name)) ++
          s.carried.map (fun e => (e.1, .carried e.2.name)), [], b.history⟩) := by
  obtain ⟨symbols, htakes⟩ := h.takes
  obtain ⟨hnames, hcarried⟩ := takeable_append.mp htakes.takeable
  obtain ⟨hlambdas, hmade⟩ := takeable_append.mp hnames
  -- The origin of what is left over was there in the first run, and the tree is the same.
  have horigin : ∀ e ∈ b.envs, e.1 ∉ producedBy ps → originExists t e.1 = true := by
    intro e he hnot
    have hmem : e ∈ s.carried := hb.carried ▸ List.mem_filter.mpr ⟨he, by simp [hnot]⟩
    rw [h.carried] at hmem
    exact (List.mem_filter.mp hmem).2
  have henvs : s.envs = #[] ++ (xs.map Settlement.env).toArray := by
    rw [← Array.toList_inj, h.envs]
    simp
  rw [← hb.carried] at hcarried ⊢
  rw [reserveAll, List.foldl_append] at hcarried
  refine ⟨reserveAll (reserveAll (reserveAll (sourceSymbols t) (t.closures.toList.map (lambdaOf t)))
    (xs.map (·.env.name))) ((b.envs.filter (!(producedBy ps).contains ·.1)).map (·.2.name)), ?_⟩
  have hleft := filterMapM_carry_again (t := t) ⟨_, #[] ++ (xs.map Settlement.env).toArray, 0,
    [] ++ xs.map fun x => (x.plan.identity.text, Transition.unchanged x.env.name), [], b.history⟩
    hb.active horigin hcarried
  unfold makeAll
  rw [StateT.run, Make.bind_of_ok
    (mapM_nameLambda_run hw (fun k hk => Array.mem_toList_iff.mp hk) hlambdas), ← h.plans,
    Make.bind_of_ok (h.forM_makeEnv_again hn hw hps hb.prior _ (List.nil_append xs).symm rfl hmade),
    h.plans, h.lambdas, henvs]
  exact Make.bind_of_ok hleft

/-- A synthesis that starts from what one of the same plans has left makes the same environments and
carries on the same layouts. Nothing is superseded and nothing retired. -/
theorem synthesize_again {b : Baseline} (hb : Leaves ps s xs b) :
    synthesize t ps options (some b) = .ok { s with
      generation := nextGeneration (some b)
      report := ⟨nextGeneration (some b),
        xs.map (fun x => (x.plan.identity.text, Transition.unchanged x.env.name)) ++
          s.carried.map (fun e => (e.1, .carried e.2.name)), []⟩
      history := b.history } := by
  obtain ⟨symbols, hall⟩ := h.makeAll_again hn hw hps hb
  unfold synthesize
  dsimp only
  rw [show (Option.map Baseline.history (some b)).getD [] = b.history from rfl, hall]
  rfl

end Account

end Synthesis

open Synthesis

/-- A unit leaves what its synthesis has made. -/
theorem Stages.leaves {t : ScopeTree} {options : LowerOptions} {baseline : Option Baseline}
    {u : LoweredUnit} {a : Captures} {ps : PlanTable} {s : Synthesis} {xs : List Settlement}
    (h : Stages t options baseline u a ps s xs)
    (hn : t.WellNamed) (hsorted : SortedMap.Sorted (priorLayouts baseline)) :
    Leaves ps s xs u.nextBaseline := by
  have hlive {e : NamedLayout} : e ∈ u.nextBaseline.envs ↔ e ∈ u.live :=
    h.mem_nextBaseline hn hsorted
  refine ⟨fun x hx => ?_, ?_, fun e he => h.active_of_live e (hlive.mp he)⟩
  · have hmem : (x.plan.identity.text, x.env.layout) ∈ u.live := by
      rw [← h.account.identity_env hx]
      exact h.mem_live.mpr (.inl ⟨x, hx, rfl⟩)
    have hfind : u.nextBaseline.envs.find? x.plan.identity.text = some x.env.layout :=
      SortedMap.find?_ofList_of_mem (h.nodup_live_keys hn hsorted) hmem
    rw [priorOf, Option.bind_some, Baseline.active?, hfind]
    rfl
  · -- both are in the order of the identities, so they are the same once they have the same layouts
    have hleft : SortedMap.Sorted s.carried := by
      rw [h.account.carried]
      exact hsorted.sublist (List.filter_sublist.trans List.filter_sublist)
    have hall : SortedMap.Sorted u.nextBaseline.envs := SortedMap.sorted_ofList _
    refine SortedMap.Sorted.eq_of_mem_iff (hall.sublist List.filter_sublist) hleft fun e => ?_
    rw [List.mem_filter, hlive, LoweredUnit.live, h.unit.envs, h.unit.carried, h.account.envs,
      List.mem_append, List.map_map, List.mem_map]
    constructor
    · rintro ⟨⟨x, hx, rfl⟩ | he, hnot⟩
      · have hproduced := h.account.mem_producedBy.mpr ⟨x, hx, rfl⟩
        simp [h.account.identity_env hx, hproduced] at hnot
      · exact he
    · intro he
      refine ⟨.inr he, ?_⟩
      rw [h.account.carried] at he
      exact (Bool.and_eq_true_iff.mp (List.mem_filter.mp (List.mem_filter.mp he).1).2).1

end ClosureEnv
