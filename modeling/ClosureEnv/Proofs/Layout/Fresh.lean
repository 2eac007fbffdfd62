import ClosureEnv.Proofs.Layout.Generations
import ClosureEnv.Proofs.Plan.Walk

/-!
# Made names are free

Synthesis fails only when it makes a name that is taken. That does not happen when the layouts of
the baseline have different names, all minted in earlier generations (`exists_synthesis`): `Taken`
says which names there may be once some plans are done, and the next plan gets none of them.
-/

namespace ClosureEnv.Synthesis

variable {t : ScopeTree} {holds : VarId → ClosureId → Prop} {ps : PlanTable}
  {options : LowerOptions} {baseline : Option Baseline} {generation : Nat}

/-- A baseline whose layouts can be taken over: they have different names, all minted before. -/
structure Reusable (baseline : Option Baseline) : Prop where
  /-- No two layouts have one name. -/
  names : ((priorLayouts baseline).map (·.2.name)).Nodup
  /-- Their names are not those of the generation to come. -/
  aged : ∀ e ∈ priorLayouts baseline, ∃ g < nextGeneration baseline, Aged g e

/-- There is nothing to take over without a baseline. -/
theorem Reusable.none : Reusable none :=
  ⟨List.nodup_nil, fun _ he => by cases he⟩

/-! ## Names of environments -/

/-- A layout that is taken over is that of the identity. -/
theorem priorOf_of_reuse {p : Plan} {fields : List LayoutField} {parent : Option String}
    {prior : Layout} {appended : List LayoutField}
    (h : decisionOn options baseline p fields parent = .reuse prior appended) :
    priorOf baseline p = some prior := by
  unfold decisionOn decideLayout at h
  split at h
  · cases h
  · next l hl =>
    split at h
    · cases h
    · cases h
      exact hl

/-- Names that are minted one after the other differ, but for one identity. -/
theorem MintOf.identity_eq (hw : t.WellBound holds) {p q : Plan} {c c' d d' : Nat} {n : String}
    (h : MintOf t generation p c n c') (h' : MintOf t generation q d n d') (hle : c' ≤ d) :
    p.identity = q.identity := by
  have hq := h'.shared_or_minted
  cases h with
  | shared hstatic =>
    rcases hq with ⟨hident, -⟩ | ⟨-, hminted⟩
    · exact hstatic.trans hident.symm
    · exact absurd rfl hminted.ne_shared
  | static f fn hown hfn hident =>
    generalize hn : Name.staticGenericEnv fn.ordinal generation = n at h'
    cases h' with
    | shared => exact absurd hn (Name.Minted.static _).ne_shared
    | static g gn _ hgn hident' =>
      -- the ordinal of a function is its number
      have hordinal := (Name.staticGenericEnv_inj hn).1
      rw [(hw.fn_scope f fn hfn).2.1, (hw.fn_scope g gn hgn).2.1] at hordinal
      subst hordinal
      cases hfn.symm.trans hgn
      exact hident.trans hident'.symm
    | scope o key => exact absurd hn.symm (Name.scopeEnv_ne_staticGenericEnv _ _ _ _ _)
  | scope o key hident =>
    generalize hn : Name.scopeEnv o c generation = n at h'
    cases h' with
    | shared => exact absurd hn (Name.Minted.scope _ _).ne_shared
    | static => exact absurd hn (Name.scopeEnv_ne_staticGenericEnv _ _ _ _ _)
    | scope o' key' =>
      -- Names of scopes have the count in them, which goes up with each.
      have := (Name.scopeEnv_inj hn).1
      omega

/-- A layout with a name that is minted has the identity that it is minted for. -/
theorem Reusable.identity_eq (hb : Reusable baseline) {p : Plan} {c c' : Nat} {i : String}
    {l : Layout} (hl : (i, l) ∈ priorLayouts baseline)
    (h : MintOf t (nextGeneration baseline) p c l.name c') : i = p.identity.text := by
  obtain ⟨g, hg, haged⟩ := hb.aged _ hl
  rcases h.shared_or_minted with ⟨hident, hname⟩ | ⟨-, hminted⟩
  · rw [hident]
    exact haged.eq_static hname
  · exact absurd rfl (haged.ne_of_minted hg hminted)

/-- Names tell the layouts of a baseline apart. -/
theorem Reusable.eq_of_name (hb : Reusable baseline) {e e' : NamedLayout}
    (he : e ∈ priorLayouts baseline) (he' : e' ∈ priorLayouts baseline)
    (heq : e.2.name = e'.2.name) : e = e' :=
  List.inj_on_of_nodup_map hb.names he he' heq

/-! ## Names that are taken -/

/-- A name that there may be once the plans `done` have environments and `count` scopes have got new
names. -/
inductive Taken (t : ScopeTree) (baseline : Option Baseline) (count : Nat) (done : List Plan) :
    String → Prop where
  /-- A name of the source, or that of the function that holds the globals. -/
  | source {n : String} (h : Plain n ∨ n = moduleFn) : Taken t baseline count done n
  | lambda (fn : String) (ordinal : Nat) : Taken t baseline count done (Name.lambda fn ordinal)
  /-- A name that was minted for one of the plans. -/
  | minted {p : Plan} {n : String} {c c' : Nat} (hp : p ∈ done)
      (h : MintOf t (nextGeneration baseline) p c n c') (hle : c' ≤ count) :
      Taken t baseline count done n
  /-- A name that one of the plans has taken over. -/
  | prior {p : Plan} {l : Layout} (hp : p ∈ done)
      (h : (p.identity.text, l) ∈ priorLayouts baseline) : Taken t baseline count done l.name

namespace Taken

variable {count count' : Nat} {done done' : List Plan} {n : String}

/-- More names may be taken later. -/
theorem mono (hc : count ≤ count') (hd : done ⊆ done') (h : Taken t baseline count done n) :
    Taken t baseline count' done' n := by
  cases h with
  | source h => exact .source h
  | lambda fn ordinal => exact .lambda fn ordinal
  | minted hp h hle => exact .minted (hd hp) h (Nat.le_trans hle hc)
  | prior hp h => exact .prior (hd hp) h

/-- A name that is minted next is not taken. -/
theorem not_of_mintOf (hw : t.WellBound holds) (hb : Reusable baseline) {p : Plan} {c' : Nat}
    (hp : ∀ q ∈ done, q.identity ≠ p.identity)
    (h : MintOf t (nextGeneration baseline) p count n c') : ¬ Taken t baseline count done n := by
  intro htaken
  cases htaken with
  | source hn => exact hn.elim h.ofEnv.not_plain h.ofEnv.ne_moduleFn
  | lambda fn ordinal => exact h.ofEnv.ne_lambda fn ordinal rfl
  | minted hq h' hle => exact hp _ hq (h'.identity_eq hw h hle)
  | prior hq hl => exact hp _ hq (EnvIdentity.text_inj (hb.identity_eq hl h))

/-- A name that is taken over next is not taken. -/
theorem not_of_prior (hb : Reusable baseline) {i : String} {l : Layout}
    (hp : ∀ q ∈ done, q.identity.text ≠ i) (hl : (i, l) ∈ priorLayouts baseline) :
    ¬ Taken t baseline count done l.name := by
  intro htaken
  obtain ⟨g, -, haged⟩ := hb.aged _ hl
  generalize hn : l.name = n at htaken
  cases htaken with
  | source hplain => exact hplain.elim (hn ▸ haged.ofEnv.not_plain) (hn ▸ haged.ofEnv.ne_moduleFn)
  | lambda fn ordinal => exact haged.ofEnv.ne_lambda fn ordinal hn
  | minted hq h' hle => exact hp _ hq (hb.identity_eq hl (hn ▸ h')).symm
  | prior hq hl' => exact hp _ hq (congrArg Prod.fst (hb.eq_of_name hl hl' hn)).symm

end Taken

/-! ## Plans -/

/-- What has been made when the plans `done` have environments. -/
structure Ready (t : ScopeTree) (baseline : Option Baseline) (done : List Plan) (st : State) :
    Prop where
  /-- There is an environment for each. -/
  size : st.envs.size = done.length
  /-- There is nothing else that takes names. -/
  names : ∀ n ∈ st.symbols.names, Taken t baseline st.counter done n

/-- The plans that came before another one have other identities. -/
theorem identity_ne_of_split (hn : t.WellNamed) (hps : ps.Sound t) {done rest : List Plan}
    {p : Plan} (hsplit : ps.plans.toList = done ++ p :: rest) :
    ps.plans[done.length]? = some p ∧ ∀ q ∈ done, q.identity ≠ p.identity := by
  have hget (q : Nat) : ps.plans[q]? = (done ++ p :: rest)[q]? := by
    rw [← hsplit, Array.getElem?_toList]
  have hp : ps.plans[done.length]? = some p := by
    rw [hget, List.getElem?_append_right (Nat.le_refl _), Nat.sub_self]
    rfl
  refine ⟨hp, fun q hq heq => ?_⟩
  obtain ⟨i, hi⟩ := List.mem_iff_getElem?.mp hq
  have hlt := (List.getElem?_eq_some_iff.mp hi).1
  have hqi : ps.plans[i]? = some q := by rw [hget, List.getElem?_append_left hlt, hi]
  exact absurd (hps.identity hn i _ q p hqi hp heq) (Nat.ne_of_lt hlt)

/-- The parent of the next plan has an environment, as parents come before their children. -/
theorem Ready.exists_parentName (hw : t.WellBound holds) (hps : ps.Sound t) {done : List Plan}
    {p : Plan} (hp : ps.plans[done.length]? = some p) {st : State}
    (h : Ready t baseline done st) : ∃ parent, parentName st.envs p = .ok parent := by
  unfold parentName
  cases hq : p.parent with
  | none => exact ⟨none, rfl⟩
  | some q =>
    have hlt := hps.linking.parent_lt hw.preorder (PlanTable.parent?_eq_some.mpr ⟨p, hp, hq⟩)
    rw [← h.size] at hlt
    exact ⟨some st.envs[q].name, by
      dsimp only
      rw [Array.getElem?_eq_getElem hlt]
      rfl⟩

/-- The name that a plan gets was not taken before, and is taken then. -/
theorem Settles.taken (hw : t.WellBound holds) (hb : Reusable baseline) {done : List Plan}
    {p : Plan} (hother : ∀ q ∈ done, q.identity ≠ p.identity) {fields : List LayoutField}
    {parent : Option String} {st st₁ : State} {name : String} {fs : List EnvField} {m : Nat}
    (h : Settles t (nextGeneration baseline) p fields st
      (decisionOn options baseline p fields parent) name fs m st₁) :
    ¬ Taken t baseline st.counter done name ∧ st.counter ≤ st₁.counter ∧
      Taken t baseline st₁.counter (done ++ [p]) name := by
  have hmem : p ∈ done ++ [p] := List.mem_append_right _ (List.mem_singleton.mpr rfl)
  have hminted {count : Nat} (hmint : MintOf t (nextGeneration baseline) p st.counter name count) :
      ¬ Taken t baseline st.counter done name ∧ st.counter ≤ count ∧
        Taken t baseline count (done ++ [p]) name :=
    ⟨Taken.not_of_mintOf hw hb hother hmint, hmint.le, .minted hmem hmint (Nat.le_refl _)⟩
  generalize hd : decisionOn options baseline p fields parent = d at h
  cases h with
  | mint name count hmint => exact hminted hmint
  | supersede prior reason name count hmint => exact hminted hmint
  | reuse prior appended =>
    have hprior := (priorOf_eq_some (priorOf_of_reuse hd)).1
    exact ⟨Taken.not_of_prior hb (fun q hq heq => hother q hq (EnvIdentity.text_inj heq)) hprior,
      Nat.le_refl _, .prior hmem hprior⟩

section

variable (hw : t.WellBound holds) (hn : t.WellNamed) (hps : ps.Sound t) (hb : Reusable baseline)

include hw hn hps hb

/-- The environment of the next plan can be made. -/
theorem Ready.step (options : LowerOptions) {done rest : List Plan} {p : Plan}
    (hsplit : ps.plans.toList = done ++ p :: rest) {st : State} (h : Ready t baseline done st) :
    ∃ st', makeEnv t options baseline (nextGeneration baseline) p st = .ok ((), st') ∧
      Ready t baseline (done ++ [p]) st' := by
  obtain ⟨hp, hother⟩ := identity_ne_of_split hn hps hsplit
  obtain ⟨fields, hfields, -⟩ := desiredFields_spec hn (exists_var hps hp)
  obtain ⟨parent, hparent⟩ := h.exists_parentName hw hps hp
  obtain ⟨name, fs, m, st₁, hsettles, hrun⟩ := makeEnv_spec (nameable_of_sound hps hp) options
    baseline (nextGeneration baseline) hfields hparent
  obtain ⟨henvs, hsymbols, -⟩ := hsettles.state (envOf options p name fs parent m) rfl
  obtain ⟨hfree, hcount, htaken⟩ := hsettles.taken hw hb hother
  rw [declare_eq_ok.mpr ⟨fun hmem => hfree (h.names name (hsymbols ▸ hmem)), rfl⟩] at hrun
  refine ⟨_, hrun, ?_, ?_⟩
  · show (st₁.envs.push _).size = _
    rw [Array.size_push, henvs, h.size, List.length_append]
    rfl
  · intro n hmem
    rcases List.mem_cons.mp hmem with rfl | hmem
    · exact htaken
    · exact (h.names n (hsymbols ▸ hmem)).mono hcount (List.subset_append_left _ _)

/-- The environments of all plans can be made. -/
theorem Ready.run (options : LowerOptions) : ∀ (rest : List Plan) {done : List Plan} {st : State},
    ps.plans.toList = done ++ rest → Ready t baseline done st →
    ∃ st', rest.forM (makeEnv t options baseline (nextGeneration baseline)) st = .ok ((), st') ∧
      Ready t baseline ps.plans.toList st'
  | [], done, st, hsplit, h => by
    rw [List.append_nil] at hsplit
    exact ⟨st, rfl, hsplit ▸ h⟩
  | p :: rest, done, st, hsplit, h => by
    obtain ⟨st₁, hrun, h₁⟩ := h.step hw hn hps hb options hsplit
    obtain ⟨st₂, hrest, h₂⟩ := Ready.run options rest (by rw [hsplit]; simp) h₁
    refine ⟨st₂, ?_, h₂⟩
    rw [List.forM, Make.bind_of_ok hrun]
    exact hrest

end

/-! ## Lambdas -/

/-- The names of the functions and the globals are there from the start. -/
theorem mem_sourceSymbols {n : String} : n ∈ (sourceSymbols t).names ↔
    (∃ f ∈ t.fns, f.name = n) ∨ ∃ g ∈ t.globals, g.name = n := by
  have hreserve {α : Type} (name : α → String) (xs : List α) (s : SymbolTable) :
      (xs.foldl (fun s x => s.reserve (name x)) s).names = (xs.map name).reverse ++ s.names := by
    induction xs generalizing s with
    | nil => rfl
    | cons x xs ih =>
      rw [List.foldl_cons, ih]
      simp [SymbolTable.reserve]
  unfold sourceSymbols
  dsimp only
  rw [← Array.foldl_toList, ← Array.foldl_toList, hreserve, hreserve]
  simp [SymbolTable.empty, or_comm]

/-- They are names of the source, or that of the function that holds the globals. -/
theorem plain_of_mem_sourceSymbols (hn : t.WellNamed) {n : String}
    (hmem : n ∈ (sourceSymbols t).names) : Plain n ∨ n = moduleFn := by
  rcases mem_sourceSymbols.mp hmem with ⟨f, hf, rfl⟩ | ⟨g, hg, rfl⟩
  · have hname := hn.fn_name f hf
    split at hname
    · exact .inr hname
    · exact .inl hname
  · exact .inl (hn.global_name g hg)

/-- Lambdas can be named while their names are free. -/
theorem exists_nameLambda (hw : t.WellBound holds) : ∀ (ks : List Closure) (st : State),
    (∀ k ∈ ks, k ∈ t.closures) → (ks.map (lambdaOf t)).Nodup →
    (∀ k ∈ ks, lambdaOf t k ∉ st.symbols.names) →
    ∃ es st', ks.mapM (nameLambda t) st = .ok (es, st')
  | [], st, _, _, _ => ⟨[], st, rfl⟩
  | k :: ks, st, hks, hnodup, hfree => by
    obtain ⟨c, hc⟩ := Array.mem_iff_getElem?.mp (hks k List.mem_cons_self)
    rw [List.map_cons, List.nodup_cons] at hnodup
    have hdeclare := declare_eq_ok.mpr ⟨hfree k List.mem_cons_self, rfl⟩
    have hrun := nameLambda_run hw hc st
    rw [hdeclare] at hrun
    obtain ⟨es, st', hes⟩ := exists_nameLambda hw ks
      { st with symbols := st.symbols.reserve (lambdaOf t k) }
      (fun k' hk' => hks k' (List.mem_cons_of_mem _ hk')) hnodup.2 fun k' hk' hmem => by
        rcases List.mem_cons.mp hmem with heq | hmem
        · exact hnodup.1 (heq ▸ List.mem_map_of_mem hk')
        · exact hfree k' (List.mem_cons_of_mem _ hk') hmem
    exact ⟨(c, lambdaOf t k) :: es, st', by
      rw [List.mapM_cons, Make.bind_of_ok hrun, Make.bind_of_ok hes]
      rfl⟩

/-! ## What is left of the baseline -/

/-- The next layout of a baseline can be gone over: if its name is to be taken again, it is free. -/
theorem exists_carry_one (hb : Reusable baseline) {count : Nat} {done : List Plan}
    {seen es : List NamedLayout} {e : NamedLayout} {st : State}
    (hsplit : priorLayouts baseline = seen ++ e :: es)
    (hnames : ∀ n ∈ st.symbols.names, Taken t baseline count done n ∨ ∃ e ∈ seen, n = e.2.name) :
    ∃ y st', carry t (done.map (·.identity.text)) e st = .ok (y, st') ∧
      ∀ n ∈ st'.symbols.names, Taken t baseline count done n ∨ ∃ e' ∈ seen ++ [e], n = e'.2.name := by
  have hnames' : ∀ n ∈ st.symbols.names,
      Taken t baseline count done n ∨ ∃ e' ∈ seen ++ [e], n = e'.2.name :=
    fun n hmem => (hnames n hmem).imp_right fun ⟨e', he', heq⟩ =>
      ⟨e', List.mem_append_left _ he', heq⟩
  rw [carry_run]
  split
  · exact ⟨none, st, rfl, hnames'⟩
  next hleft =>
  split
  · have hfree : e.2.name ∉ st.symbols.names := by
      intro hmem
      rcases hnames _ hmem with htaken | ⟨e', he', heq⟩
      · have he : e ∈ priorLayouts baseline := by simp [hsplit]
        refine Taken.not_of_prior hb (fun q hq heq => hleft ?_) he htaken
        have hproduced : e.1 ∈ done.map (·.identity.text) := heq ▸ List.mem_map_of_mem hq
        rw [isLeft, List.contains_iff_mem.mpr hproduced]
        rfl
      · -- The baseline names no two layouts alike.
        have hnodup := hb.names
        rw [hsplit, List.map_append, List.nodup_append] at hnodup
        exact hnodup.2.2 _ (List.mem_map_of_mem he') _ (List.mem_map_of_mem List.mem_cons_self)
          heq.symm
    rw [declare_eq_ok.mpr ⟨hfree, rfl⟩]
    refine ⟨_, _, rfl, fun n hmem => ?_⟩
    rcases List.mem_cons.mp hmem with rfl | hmem
    · exact .inr ⟨e, List.mem_append_right _ (List.mem_singleton.mpr rfl), rfl⟩
    · exact hnames' n hmem
  · exact ⟨_, _, rfl, hnames'⟩

/-- What is left of a baseline can be gone over. -/
theorem exists_carry (hb : Reusable baseline) {count : Nat} {done : List Plan} :
    ∀ (es seen : List NamedLayout) (st : State), priorLayouts baseline = seen ++ es →
    (∀ n ∈ st.symbols.names, Taken t baseline count done n ∨ ∃ e ∈ seen, n = e.2.name) →
    ∃ ys st', es.filterMapM (carry t (done.map (·.identity.text))) st = .ok (ys, st')
  | [], seen, st, _, _ => ⟨[], st, rfl⟩
  | e :: es, seen, st, hsplit, hnames => by
    obtain ⟨y, st₁, hrun, hnames₁⟩ := exists_carry_one hb hsplit hnames
    obtain ⟨ys, st', hys⟩ := exists_carry hb es _ st₁ (by rw [hsplit]; simp) hnames₁
    rw [List.filterMapM_cons, Make.bind_of_ok hrun]
    cases y with
    | none => exact ⟨ys, st', hys⟩
    | some y => exact ⟨y :: ys, st', by dsimp only; rw [Make.bind_of_ok hys]; rfl⟩

/-! ## The whole -/

/-- The environments of a well-named tree can be made, whatever is taken over. -/
theorem exists_synthesis (hw : t.WellBound holds) (hn : t.WellNamed) (hps : ps.Sound t)
    (options : LowerOptions) (hb : Reusable baseline) :
    ∃ s, synthesize t ps options baseline = .ok s := by
  let start : State :=
    ⟨sourceSymbols t, #[], 0, [], [], (baseline.map Baseline.history).getD []⟩
  obtain ⟨es, st₁, hlambdas⟩ := exists_nameLambda hw t.closures.toList start
    (fun k hk => Array.mem_toList_iff.mp hk) (nodup_lambdaOf hw hn) fun k _ hmem =>
      (plain_of_mem_sourceSymbols hn hmem).elim (Name.not_plain_lambda _ _)
        (Name.lambda_ne_moduleFn _ _)
  obtain ⟨-, symbols, hnamed, rfl⟩ :=
    mapM_nameLambda hw (fun k hk => Array.mem_toList_iff.mp hk) hlambdas
  -- So far the lambdas have taken names, besides the source.
  have hready : Ready t baseline [] { start with symbols } := by
    refine ⟨rfl, fun n hmem => ?_⟩
    rw [hnamed.table, List.mem_append, List.mem_reverse] at hmem
    rcases hmem with hmem | hmem
    · obtain ⟨k, -, rfl⟩ := List.mem_map.mp hmem
      exact .lambda _ _
    · exact .source (plain_of_mem_sourceSymbols hn hmem)
  obtain ⟨st₂, hplans, h₂⟩ := Ready.run hw hn hps hb options ps.plans.toList rfl hready
  obtain ⟨ys, st₃, hcarry⟩ := exists_carry (t := t) hb (priorLayouts baseline) [] st₂ rfl
    fun n hmem => .inl (h₂.names n hmem)
  have hall : makeAll t ps options baseline (nextGeneration baseline) start =
      .ok ((.ofList es, ys), st₃) := by
    unfold makeAll
    rw [Make.bind_of_ok hlambdas, Make.bind_of_ok hplans]
    exact Make.bind_of_ok hcarry
  unfold synthesize
  dsimp only
  rw [show StateT.run (makeAll t ps options baseline (nextGeneration baseline)) start = _ from hall]
  exact ⟨_, rfl⟩

end ClosureEnv.Synthesis
