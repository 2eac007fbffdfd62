import ClosureEnv.Proofs.Layout.Making

/-!
# What a synthesis does, plan by plan

A synthesis names the lambdas, settles one plan after another and then goes over what is left of the
baseline. `Making` is the second part as a relation: the plans, what became of each (`Settlement`)
and the state before and after. `Account` gathers what the whole leaves (`account_of_synthesize`):
the environments, the records, the history and the layouts that are carried on, each read off the
settlements and the baseline, and the names that were taken for all this.
-/

namespace ClosureEnv.Synthesis

variable {t : ScopeTree} {ps : PlanTable} {options : LowerOptions} {baseline : Option Baseline}
  {generation : Nat}

/-- A name that could be taken was free. -/
theorem declare_eq_ok {s s' : SymbolTable} {name : String} :
    s.declare name = .ok s' ↔ name ∉ s.names ∧ s' = s.reserve name := by
  unfold SymbolTable.declare SymbolTable.contains
  split
  · next hc =>
    refine ⟨fun h => (by cases h), fun ⟨hn, _⟩ => absurd (List.contains_iff_mem.mp hc) hn⟩
  · next hc =>
    rw [Except.ok.injEq]
    refine ⟨fun h => ⟨fun hn => hc (List.contains_iff_mem.mpr hn), h.symm⟩, fun h => h.2.symm⟩

/-- Some names, all free and different, were taken one after another. -/
structure Takes (names : List String) (s s' : SymbolTable) : Prop where
  table : s'.names = names.reverse ++ s.names
  nodup : names.Nodup
  free : ∀ n ∈ names, n ∉ s.names

namespace Takes

variable {s s₁ s₂ : SymbolTable} {names more : List String} {name : String}

/-- Nothing was taken. -/
theorem nil (s : SymbolTable) : Takes [] s s :=
  ⟨rfl, .nil, fun n hn => (by cases hn)⟩

/-- One name was taken before the others. -/
theorem cons (hfree : name ∉ s.names) (h : Takes names (s.reserve name) s₂) :
    Takes (name :: names) s s₂ where
  table := by simp [h.table, SymbolTable.reserve]
  nodup := List.nodup_cons.mpr ⟨fun hn => h.free name hn List.mem_cons_self, h.nodup⟩
  free := List.forall_mem_cons.mpr
    ⟨hfree, fun n hn hmem => h.free n hn (List.mem_cons_of_mem _ hmem)⟩

/-- Some names were taken before the others. -/
theorem append (h : Takes names s s₁) (h' : Takes more s₁ s₂) : Takes (names ++ more) s s₂ where
  table := by simp [h'.table, h.table]
  nodup := by
    refine List.nodup_append.mpr ⟨h.nodup, h'.nodup, fun a ha b hb hab => h'.free b hb ?_⟩
    rw [h.table, ← hab]
    exact List.mem_append_left _ (List.mem_reverse.mpr ha)
  free n hn hmem := by
    rcases List.mem_append.mp hn with hn | hn
    · exact h.free n hn hmem
    · exact h'.free n hn (h.table ▸ List.mem_append_right _ hmem)

end Takes

/-! ## Plans -/

/-- What became of a plan. -/
structure Settlement where
  plan : Plan
  /-- The fields that were wanted. -/
  fields : List LayoutField
  decision : Decision
  env : EnvType

namespace Settlement

/-- What is recorded of a settlement. -/
def transition (x : Settlement) : Transition :=
  match x.decision with
  | .mint => .created x.env.name
  | .reuse prior appended =>
    if appended.isEmpty then .unchanged prior.name
    else .extended prior.name (appended.map LayoutField.name)
  | .supersede prior reason => .superseded prior.name x.env.name reason

/-- The record of a settlement. -/
def record (x : Settlement) : String × Transition :=
  (x.plan.identity.text, x.transition)

/-- The layout that a settlement supersedes. -/
def superseded? (x : Settlement) : Option NamedLayout :=
  match x.decision with
  | .mint | .reuse .. => none
  | .supersede prior _ => some (x.plan.identity.text, { prior with state := .superseded })

/-- What is noted of a layout that a settlement supersedes, with the plan. -/
def degradation? (x : Settlement) : Option (PlanId × Degradation) :=
  match x.decision with
  | .mint | .reuse .. => none
  | .supersede prior reason =>
    some (x.plan.id, ⟨x.plan.identity.text, prior.name, x.env.name, reason, []⟩)

end Settlement

/-- A name, fields and a minting generation that a decision leads to. -/
inductive Follows (t : ScopeTree) (generation : Nat) (p : Plan) (fields : List LayoutField) :
    Decision → String → List EnvField → Nat → Prop where
  | mint (count : Nat) (name : String) (after : Nat) : MintOf t generation p count name after →
      Follows t generation p fields .mint name (newFields p fields) generation
  | reuse (prior : Layout) (appended : List LayoutField) :
      Follows t generation p fields (.reuse prior appended) prior.name
        (keptFields p fields prior appended) prior.mintedIn
  | supersede (prior : Layout) (reason : Change) (count : Nat) (name : String) (after : Nat) :
      MintOf t generation p count name after →
      Follows t generation p fields (.supersede prior reason) name (newFields p fields) generation

/-- A settlement that is in order. -/
structure Settled (t : ScopeTree) (options : LowerOptions) (baseline : Option Baseline)
    (generation : Nat) (x : Settlement) : Prop where
  /-- The fields are those of the plan. -/
  fields : desiredFields t x.plan = .ok x.fields
  /-- It was decided on the live layout of the identity. -/
  decision : x.decision = decisionOn options baseline x.plan x.fields x.env.parent
  /-- The name, the fields and the minting generation follow from the decision. -/
  follows : Follows t generation x.plan x.fields x.decision x.env.name x.env.fields x.env.generation
  /-- The rest is as planned. -/
  env : x.env = envOf options x.plan x.env.name x.env.fields x.env.parent x.env.generation

/-- What is wanted of the environment of a settlement. -/
def Settlement.desired (options : LowerOptions) (x : Settlement) : DesiredLayout :=
  ⟨x.plan.repr, x.fields, x.env.parent, x.plan.isSingleton, options.incremental && x.plan.repr == .value⟩

/-- The environment of a settlement is as it was wanted, but for the fields. -/
theorem Settled.desired_eq {x : Settlement} (h : Settled t options baseline generation x) :
    x.desired options =
      ⟨x.env.kind, x.fields, x.env.parent, x.env.isSingleton, x.env.isExpandable⟩ := by
  rw [h.env]
  rfl

/-- The live layout of the identity of a plan. -/
def priorOf (baseline : Option Baseline) (p : Plan) : Option Layout :=
  baseline.bind (·.active? p.identity.text)

/-- The ways in which a settlement can come about. -/
inductive Outcome (t : ScopeTree) (options : LowerOptions) (baseline : Option Baseline)
    (generation : Nat) (x : Settlement) : Prop where
  /-- Nothing is live under the identity, so the environment is new. -/
  | minted (count after : Nat) (hprior : priorOf baseline x.plan = none)
      (hdecision : x.decision = .mint)
      (hname : MintOf t generation x.plan count x.env.name after)
      (hfields : x.env.fields = newFields x.plan x.fields) (hgen : x.env.generation = generation)
  /-- It fits the live layout and takes it over. -/
  | reused (prior : Layout) (appended : List LayoutField)
      (hprior : priorOf baseline x.plan = some prior)
      (hfit : change? prior (x.desired options) = none)
      (happended : appended = x.fields.filter fun f => (prior.field? f.name).isNone)
      (hdecision : x.decision = .reuse prior appended)
      (hname : x.env.name = prior.name)
      (hfields : x.env.fields = keptFields x.plan x.fields prior appended)
      (hgen : x.env.generation = prior.mintedIn)
  /-- It does not fit the live layout and is new. -/
  | superseded (prior : Layout) (reason : Change) (count after : Nat)
      (hprior : priorOf baseline x.plan = some prior)
      (hchange : change? prior (x.desired options) = some reason)
      (hdecision : x.decision = .supersede prior reason)
      (hname : MintOf t generation x.plan count x.env.name after)
      (hfields : x.env.fields = newFields x.plan x.fields) (hgen : x.env.generation = generation)

/-- A settlement that is in order comes about in one of these ways. -/
theorem Settled.outcome {x : Settlement} (h : Settled t options baseline generation x) :
    Outcome t options baseline generation x := by
  have hd := h.decision
  have hfollows := h.follows
  generalize hname : x.env.name = name at hfollows
  generalize hfields : x.env.fields = fs at hfollows
  generalize hgen : x.env.generation = m at hfollows
  unfold decisionOn decideLayout at hd
  -- Either there is no prior layout, or it does not fit, or it is taken over.
  split at hd
  · next hprior =>
    rw [hd] at hfollows
    cases hfollows with
    | mint count name after hmint => exact .minted count after hprior hd (hname ▸ hmint) hfields hgen
  · next prior hprior =>
    split at hd
    · next reason hchange =>
      rw [hd] at hfollows
      cases hfollows with
      | supersede _ _ count name after hmint =>
        exact .superseded prior reason count after hprior hchange hd (hname ▸ hmint) hfields hgen
    · next hfit =>
      rw [hd] at hfollows
      cases hfollows
      exact .reused prior _ hprior hfit rfl hd hname hfields hgen

/-- Settling one plan after another. -/
inductive Making (t : ScopeTree) (options : LowerOptions) (baseline : Option Baseline)
    (generation : Nat) : List Plan → State → List Settlement → State → Prop where
  | nil (st : State) : Making t options baseline generation [] st [] st
  | cons {p : Plan} {plans : List Plan} {st st₁ st' : State} {xs : List Settlement}
      {fields : List LayoutField} {parent : Option String} {name : String} {fs : List EnvField}
      {m : Nat} (hfields : desiredFields t p = .ok fields)
      (hparent : parentName st.envs p = .ok parent)
      (hsettles : Settles t generation p fields st (decisionOn options baseline p fields parent)
        name fs m st₁)
      (hfree : name ∉ st₁.symbols.names)
      (hrest : Making t options baseline generation plans
        { st₁ with
          symbols := st₁.symbols.reserve name
          envs := st₁.envs.push (envOf options p name fs parent m) } xs st') :
      Making t options baseline generation (p :: plans) st
        (⟨p, fields, decisionOn options baseline p fields parent, envOf options p name fs parent m⟩
          :: xs) st'

/-- Making the environment of a plan, when it succeeds. -/
theorem exists_settles {p : Plan} (hp : Nameable t p) {st st' : State}
    (hrun : makeEnv t options baseline generation p st = .ok ((), st')) :
    ∃ fields parent name fs m st₁, desiredFields t p = .ok fields ∧
      parentName st.envs p = .ok parent ∧
      Settles t generation p fields st (decisionOn options baseline p fields parent) name fs m
        st₁ ∧
      name ∉ st₁.symbols.names ∧ st' = { st₁ with
        symbols := st₁.symbols.reserve name
        envs := st₁.envs.push (envOf options p name fs parent m) } := by
  obtain ⟨fields, hf⟩ : ∃ fields, desiredFields t p = .ok fields := by
    unfold makeEnv at hrun
    obtain ⟨fields, st₁, hf, -⟩ := Make.bind_eq_ok.mp hrun
    cases hd : desiredFields t p with
    | error e => rw [hd] at hf; cases hf
    | ok fields => exact ⟨fields, rfl⟩
  obtain ⟨parent, hparent⟩ : ∃ parent, parentName st.envs p = .ok parent := by
    unfold makeEnv at hrun
    rw [Make.bind_lift_of_ok hf, Make.get_bind] at hrun
    obtain ⟨parent, st₁, hparent, -⟩ := Make.bind_eq_ok.mp hrun
    cases hq : parentName st.envs p with
    | error e => rw [hq] at hparent; cases hparent
    | ok q => exact ⟨q, rfl⟩
  obtain ⟨name, fs, m, st₁, hsettles, heq⟩ := makeEnv_spec hp options baseline generation hf hparent
  rw [heq] at hrun
  cases hd : st₁.symbols.declare name with
  | error e => rw [hd] at hrun; cases hrun
  | ok symbols =>
    rw [hd] at hrun
    cases hrun
    obtain ⟨hfree, rfl⟩ := declare_eq_ok.mp hd
    exact ⟨fields, parent, name, fs, m, st₁, hf, hparent, hsettles, hfree, rfl⟩

/-- Making the environments of some plans, when it succeeds. -/
theorem exists_making {plans : List Plan} (hp : ∀ p ∈ plans, Nameable t p) {st st' : State}
    (hrun : plans.forM (makeEnv t options baseline generation) st = .ok ((), st')) :
    ∃ xs, Making t options baseline generation plans st xs st' := by
  induction plans generalizing st with
  | nil =>
    cases hrun
    exact ⟨[], .nil _⟩
  | cons p plans ih =>
    rw [List.forM] at hrun
    obtain ⟨⟨⟩, st₂, hfirst, hrest⟩ := Make.bind_eq_ok.mp hrun
    obtain ⟨fields, parent, name, fs, m, st₁, hf, hparent, hsettles, hfree, rfl⟩ :=
      exists_settles (hp p List.mem_cons_self) hfirst
    obtain ⟨xs, hxs⟩ := ih (fun q hq => hp q (List.mem_cons_of_mem _ hq)) hrest
    exact ⟨_, .cons hf hparent hsettles hfree hxs⟩

/-- Settling a plan leaves the environments before it and the names alone, and is recorded. -/
theorem Settles.state {p : Plan} {fields : List LayoutField} {d : Decision} {name : String}
    {fs : List EnvField} {m : Nat} {st st' : State}
    (h : Settles t generation p fields st d name fs m st') (e : EnvType) (he : e.name = name) :
    st'.envs = st.envs ∧ st'.symbols = st.symbols ∧
      st'.transitions = st.transitions ++ [Settlement.record ⟨p, fields, d, e⟩] ∧
      st'.history = st.history ++ (Settlement.superseded? ⟨p, fields, d, e⟩).toList ∧
      st'.degraded = st.degraded ++ (Settlement.degradation? ⟨p, fields, d, e⟩).toList := by
  cases h <;> simp [Settlement.record, Settlement.transition, Settlement.superseded?,
    Settlement.degradation?, he]

/-- What is settled follows from the decision. -/
theorem Settles.follows {p : Plan} {fields : List LayoutField} {d : Decision} {name : String}
    {fs : List EnvField} {m : Nat} {st st' : State}
    (h : Settles t generation p fields st d name fs m st') :
    Follows t generation p fields d name fs m := by
  cases h with
  | mint name after hmint => exact .mint _ name after hmint
  | reuse prior appended => exact .reuse prior appended
  | supersede prior reason name after hmint => exact .supersede prior reason _ name after hmint

/-- The name of a parent stays when more environments are made. -/
theorem parentName_push {envs : Array EnvType} {p : Plan} {parent : Option String}
    (h : parentName envs p = .ok parent) (e : EnvType) :
    parentName (envs.push e) p = .ok parent := by
  unfold parentName at h ⊢
  cases hq : p.parent with
  | none => rw [hq] at h; exact h
  | some q =>
    rw [hq] at h
    obtain ⟨f, hf, h⟩ := Lower.bind_eq_ok.mp h
    rw [Lower.orInconsistent_eq_ok] at hf
    refine Lower.bind_eq_ok.mpr ⟨f, Lower.orInconsistent_eq_ok.mpr ?_, h⟩
    rw [Array.getElem?_push, if_neg (Nat.ne_of_lt (Array.getElem?_eq_some_iff.mp hf).1), hf]

namespace Making

variable {plans : List Plan} {st st' : State} {xs : List Settlement}

/-- There is a settlement for every plan. -/
theorem plans_eq (h : Making t options baseline generation plans st xs st') :
    xs.map Settlement.plan = plans := by
  induction h with
  | nil => rfl
  | cons _ _ _ _ _ ih => rw [List.map_cons, ih]

/-- Settlements are in order. -/
theorem settled (h : Making t options baseline generation plans st xs st') :
    ∀ x ∈ xs, Settled t options baseline generation x := by
  induction h with
  | nil => exact fun x hx => (by cases hx)
  | cons hf _ hsettles _ _ ih =>
    refine List.forall_mem_cons.mpr ⟨⟨hf, rfl, hsettles.follows, rfl⟩, ih⟩

/-- Every settlement makes an environment. -/
theorem envs_eq (h : Making t options baseline generation plans st xs st') :
    st'.envs.toList = st.envs.toList ++ xs.map Settlement.env := by
  induction h with
  | nil => simp
  | @cons p _ _ _ _ _ _ parent name fs m _ _ hsettles _ _ ih =>
    rw [ih, Array.toList_push, (hsettles.state (envOf options p name fs parent m) rfl).1]
    simp

/-- The parents of environments are those of the plans. -/
theorem parents (h : Making t options baseline generation plans st xs st') :
    (∀ p parent, parentName st.envs p = .ok parent → parentName st'.envs p = .ok parent) ∧
      ∀ x ∈ xs, parentName st'.envs x.plan = .ok x.env.parent := by
  induction h with
  | nil => exact ⟨fun _ _ => id, fun x hx => (by cases hx)⟩
  | @cons p _ _ _ _ _ _ parent name fs m _ hparent hsettles _ _ ih =>
    have henvs := (hsettles.state (envOf options p name fs parent m) rfl).1
    have hkeep p parent (hp : parentName _ p = .ok parent) :=
      ih.1 p parent (parentName_push (henvs.symm ▸ hp) _)
    exact ⟨hkeep, List.forall_mem_cons.mpr ⟨hkeep _ _ hparent, ih.2⟩⟩

/-- Every settlement is recorded. -/
theorem transitions_eq (h : Making t options baseline generation plans st xs st') :
    st'.transitions = st.transitions ++ xs.map Settlement.record := by
  induction h with
  | nil => simp
  | @cons p _ _ _ _ _ _ parent name fs m _ _ hsettles _ _ ih =>
    rw [ih, (hsettles.state (envOf options p name fs parent m) rfl).2.2.1]
    simp

/-- Superseded layouts go to the history. -/
theorem history_eq (h : Making t options baseline generation plans st xs st') :
    st'.history = st.history ++ xs.filterMap Settlement.superseded? := by
  induction h with
  | nil => simp
  | @cons p _ _ _ _ _ _ parent name fs m _ _ hsettles _ _ ih =>
    rw [ih, (hsettles.state (envOf options p name fs parent m) rfl).2.2.2.1, List.filterMap_cons]
    cases Settlement.superseded? _ <;> simp

/-- Superseded layouts are noted. -/
theorem degraded_eq (h : Making t options baseline generation plans st xs st') :
    st'.degraded = st.degraded ++ xs.filterMap Settlement.degradation? := by
  induction h with
  | nil => simp
  | @cons p _ _ _ _ _ _ parent name fs m _ _ hsettles _ _ ih =>
    rw [ih, (hsettles.state (envOf options p name fs parent m) rfl).2.2.2.2, List.filterMap_cons]
    cases Settlement.degradation? _ <;> simp

/-- Every settlement takes a name. -/
theorem takes (h : Making t options baseline generation plans st xs st') :
    Takes (xs.map (·.env.name)) st.symbols st'.symbols := by
  induction h with
  | nil => exact .nil _
  | @cons p _ _ _ _ _ _ parent name fs m _ _ hsettles hfree _ ih =>
    have hsymbols := (hsettles.state (envOf options p name fs parent m) rfl).2.1
    exact .cons (hsymbols ▸ hfree) (hsymbols ▸ ih)

end Making

/-! ## What is left of the baseline -/

/-- Whether a layout is live and none of the identities that were produced. -/
def isLeft (produced : List String) (e : NamedLayout) : Bool :=
  !produced.contains e.1 && e.2.state == .active

/-- What is recorded of a layout that is left. -/
def leaving (t : ScopeTree) (e : NamedLayout) : String × Transition :=
  (e.1, if originExists t e.1 then .carried e.2.name else .retired e.2.name)

/-- A layout that is gone with its scope. -/
def retire (e : NamedLayout) : NamedLayout :=
  (e.1, { e.2 with state := .retired })

/-- Going over a layout: nothing happens to one that is not left, one whose origin exists takes its
name again, and any other is retired. -/
theorem carry_run (t : ScopeTree) (produced : List String) (e : NamedLayout) (st : State) :
    carry t produced e st =
      if isLeft produced e = false then .ok (none, st)
      else if originExists t e.1 then
        (st.symbols.declare e.2.name).map fun symbols =>
          (some e, { st with symbols, transitions := st.transitions ++ [leaving t e] })
      else .ok (none, { st with
        transitions := st.transitions ++ [leaving t e], history := st.history ++ [retire e] }) := by
  have hleft : (produced.contains e.1 || e.2.state != .active) = true ↔
      isLeft produced e = false := by
    rw [← Bool.not_eq_true', isLeft, Bool.not_and, Bool.not_not, bne]
  unfold carry
  dsimp only
  rw [ite_congr (propext hleft) (fun _ => rfl) fun _ => rfl]
  split
  · rfl
  · split
    · next horigin =>
      rw [leaving, if_pos horigin]
      rw [Make.bind_run, declareName_run]
      cases st.symbols.declare e.2.name <;> rfl
    · next horigin =>
      rw [leaving, if_neg horigin]
      rfl

/-- What going over some layouts does. -/
structure Carries (t : ScopeTree) (left : List NamedLayout) (st : State) (ys : List NamedLayout)
    (st' : State) : Prop where
  /-- Those whose origin exists are carried on. -/
  carried : ys = left.filter (originExists t ·.1)
  envs : st'.envs = st.envs
  transitions : st'.transitions = st.transitions ++ left.map (leaving t)
  history : st'.history = st.history ++ (left.filter (!originExists t ·.1)).map retire
  degraded : st'.degraded = st.degraded
  takes : Takes (ys.map (·.2.name)) st.symbols st'.symbols

/-- Going over a layout, when it succeeds. -/
theorem carries_of_carry {produced : List String} {e : NamedLayout} {y : Option NamedLayout}
    {st st' : State} (h : carry t produced e st = .ok (y, st')) :
    Carries t ([e].filter (isLeft produced)) st y.toList st' := by
  rw [carry_run] at h
  rw [List.filter_singleton]
  split at h
  · next hleft =>
    cases h
    rw [hleft]
    exact ⟨rfl, rfl, by simp, by simp, rfl, .nil _⟩
  next hleft =>
  rw [Bool.eq_true_of_not_eq_false hleft]
  split at h
  · next horigin =>
    cases hs : st.symbols.declare e.2.name with
    | error err => rw [hs] at h; cases h
    | ok symbols =>
      rw [hs] at h
      cases h
      obtain ⟨hfree, rfl⟩ := declare_eq_ok.mp hs
      exact ⟨by simp [horigin], rfl, rfl, by simp [horigin], rfl, .cons hfree (.nil _)⟩
  · next horigin =>
    cases h
    exact ⟨by simp [horigin], rfl, rfl, by simp [horigin], rfl, .nil _⟩

/-- Going over more layouts. -/
theorem Carries.append {left more ys zs : List NamedLayout} {st st₁ st' : State}
    (h : Carries t left st ys st₁) (h' : Carries t more st₁ zs st') :
    Carries t (left ++ more) st (ys ++ zs) st' where
  carried := by rw [h.carried, h'.carried, List.filter_append]
  envs := h'.envs.trans h.envs
  transitions := by simp [h'.transitions, h.transitions]
  history := by simp [h'.history, h.history]
  degraded := h'.degraded.trans h.degraded
  takes := by
    rw [List.map_append]
    exact h.takes.append h'.takes

/-- Going over the layouts of a baseline, when it succeeds. -/
theorem carries_of_filterMapM {produced : List String} {es ys : List NamedLayout} {st st' : State}
    (h : es.filterMapM (carry t produced) st = .ok (ys, st')) :
    Carries t (es.filter (isLeft produced)) st ys st' := by
  induction es generalizing st ys with
  | nil =>
    cases h
    exact ⟨rfl, rfl, by simp, by simp, rfl, .nil _⟩
  | cons e es ih =>
    rw [List.filterMapM_cons] at h
    obtain ⟨y, st₁, hfirst, hrest⟩ := Make.bind_eq_ok.mp h
    rw [← List.singleton_append, List.filter_append]
    cases y with
    | none => exact (carries_of_carry hfirst).append (ih hrest)
    | some y =>
      obtain ⟨zs, st₂, hzs, hlast⟩ := Make.bind_eq_ok.mp hrest
      cases hlast
      exact (carries_of_carry hfirst).append (ih hzs)

/-! ## Lambdas -/

/-- The name of the lambda of a closure. -/
def lambdaOf (t : ScopeTree) (k : Closure) : String :=
  Name.lambda (t.fns[k.owner]?.getD default).name k.ordinal

/-- Naming a lambda takes its name and leaves all else alone. -/
theorem nameLambda_run {holds : VarId → ClosureId → Prop} (h : t.WellBound holds) {c : Nat}
    {k : Closure} (hk : t.closures[c]? = some k) (st : State) :
    nameLambda t k st = (st.symbols.declare (lambdaOf t k)).map fun symbols =>
      ((c, lambdaOf t k), { st with symbols }) := by
  have hlt := h.closure_owner c k hk
  have hf : t.fns[k.owner]? = some t.fns[k.owner] := Array.getElem?_eq_getElem hlt
  unfold nameLambda lambdaOf
  rw [Make.bind_lift_of_ok (ScopeTree.function_eq_ok.mpr hf), hf, Option.getD_some,
    h.closure_id c k hk]
  cases hd : st.symbols.declare (Name.lambda t.fns[k.owner].name k.ordinal) with
  | error e =>
    rw [show (declareName _ >>= _) st = (declareName _ st >>= _) from rfl, declareName_run, hd]
    rfl
  | ok symbols =>
    rw [Make.bind_of_ok (by rw [declareName_run, hd]; rfl)]
    rfl

/-- The names of the lambdas, once they are all free. -/
theorem mapM_nameLambda {holds : VarId → ClosureId → Prop} (h : t.WellBound holds)
    {ks : List Closure} (hks : ∀ k ∈ ks, k ∈ t.closures) {st st' : State}
    {es : List (ClosureId × String)} (hrun : ks.mapM (nameLambda t) st = .ok (es, st')) :
    es = ks.map (fun k => (k.id, lambdaOf t k)) ∧
      ∃ symbols, Takes (ks.map (lambdaOf t)) st.symbols symbols ∧ st' = { st with symbols } := by
  induction ks generalizing st es with
  | nil =>
    cases hrun
    exact ⟨rfl, _, .nil _, rfl⟩
  | cons k ks ih =>
    rw [List.mapM_cons] at hrun
    obtain ⟨e, st₁, hk, hrest⟩ := Make.bind_eq_ok.mp hrun
    obtain ⟨es', st₂, hes, hlast⟩ := Make.bind_eq_ok.mp hrest
    cases hlast
    obtain ⟨c, hc⟩ := Array.mem_iff_getElem?.mp (hks k List.mem_cons_self)
    rw [nameLambda_run h hc] at hk
    cases hd : st.symbols.declare (lambdaOf t k) with
    | error e => rw [hd] at hk; cases hk
    | ok symbols =>
      rw [hd] at hk
      cases hk
      obtain ⟨hfree, rfl⟩ := declare_eq_ok.mp hd
      obtain ⟨rfl, symbols, htakes, rfl⟩ :=
        ih (fun k' hk' => hks k' (List.mem_cons_of_mem _ hk')) hes
      exact ⟨by simp [h.closure_id c k hc], symbols, .cons hfree htakes, rfl⟩

/-! ## The whole -/

/-- The identities of plans. -/
def producedBy (ps : PlanTable) : List String :=
  ps.plans.toList.map (·.identity.text)

/-- The layouts of a baseline, if there is one. -/
def priorLayouts (baseline : Option Baseline) : List NamedLayout :=
  (baseline.map Baseline.envs).getD []

/-- The layouts that are left of a baseline. -/
def leftOf (ps : PlanTable) (baseline : Option Baseline) : List NamedLayout :=
  (priorLayouts baseline).filter (isLeft (producedBy ps))

/-- What a synthesis comes to. -/
structure Account (t : ScopeTree) (ps : PlanTable) (options : LowerOptions)
    (baseline : Option Baseline) (s : Synthesis) (xs : List Settlement) : Prop where
  generation : s.generation = nextGeneration baseline
  /-- There is a settlement for every plan, in their order. -/
  plans : xs.map Settlement.plan = ps.plans.toList
  settled : ∀ x ∈ xs, Settled t options baseline (nextGeneration baseline) x
  envs : s.envs.toList = xs.map Settlement.env
  /-- The parents of environments are those of the plans. -/
  parents : ∀ x ∈ xs, parentName s.envs x.plan = .ok x.env.parent
  lambdas : s.lambdaNames = .ofList (t.closures.toList.map fun k => (k.id, lambdaOf t k))
  /-- What is left and has its origin is carried on. -/
  carried : s.carried = (leftOf ps baseline).filter (originExists t ·.1)
  transitions : s.report.transitions =
    xs.map Settlement.record ++ (leftOf ps baseline).map (leaving t)
  history : s.history = (baseline.map Baseline.history).getD []
    ++ xs.filterMap Settlement.superseded?
    ++ ((leftOf ps baseline).filter (!originExists t ·.1)).map retire
  /-- What was superseded is noted, with what depends on it. -/
  degraded : s.report.degraded = (xs.filterMap Settlement.degradation?).map fun d =>
    { d.2 with dependents := dependents t ps s.envs s.lambdaNames d.1 }
  /-- The names of lambdas, of environments and of what is carried on were taken in turn. -/
  takes : ∃ symbols, Takes (t.closures.toList.map (lambdaOf t) ++ xs.map (·.env.name)
    ++ s.carried.map (·.2.name)) (sourceSymbols t) symbols

/-- A synthesis that succeeds can be accounted for. -/
theorem account_of_synthesize {holds : VarId → ClosureId → Prop} (h : t.WellBound holds)
    (hps : ps.Sound t) {s : Synthesis} (hs : synthesize t ps options baseline = .ok s) :
    ∃ xs, Account t ps options baseline s xs := by
  unfold synthesize at hs
  dsimp only at hs
  obtain ⟨⟨⟨lambdaNames, carried⟩, st⟩, hrun, hs⟩ := Lower.bind_eq_ok.mp hs
  cases hs
  -- Names for lambdas, then the environments in the order of their plans, then what is carried
  -- along.
  obtain ⟨es, st₁, hlambdas, hrun⟩ := Make.bind_eq_ok.mp hrun
  obtain ⟨⟨⟩, st₂, henvs, hrun⟩ := Make.bind_eq_ok.mp hrun
  obtain ⟨ys, st₃, hcarry, hrun⟩ := Make.bind_eq_ok.mp hrun
  cases hrun
  obtain ⟨rfl, symbols, hnamed, rfl⟩ :=
    mapM_nameLambda h (fun k hk => Array.mem_toList_iff.mp hk) hlambdas
  obtain ⟨xs, hxs⟩ := exists_making (fun p hp => by
    obtain ⟨i, hi⟩ := Array.mem_iff_getElem?.mp (Array.mem_toList_iff.mp hp)
    exact nameable_of_sound hps hi) henvs
  -- Carrying adds to the report and to the names that are taken, and leaves the environments alone.
  have hc := carries_of_filterMapM hcarry
  exact ⟨xs, {
    generation := rfl
    plans := hxs.plans_eq
    settled := hxs.settled
    envs := by
      show st.envs.toList = _
      rw [hc.envs, hxs.envs_eq]
      rfl
    parents := by
      show ∀ x ∈ xs, parentName st.envs x.plan = _
      rw [hc.envs]
      exact hxs.parents.2
    lambdas := rfl
    carried := hc.carried
    transitions := by
      show st.transitions = _
      rw [hc.transitions, hxs.transitions_eq]
      rfl
    history := by
      show st.history = _
      rw [hc.history, hxs.history_eq]
      rfl
    degraded := by
      show st.degraded.map _ = _
      rw [hc.degraded, hxs.degraded_eq]
      rfl
    takes := ⟨_, (hnamed.append hxs.takes).append hc.takes⟩ }⟩

end ClosureEnv.Synthesis
