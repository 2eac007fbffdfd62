import ClosureEnv.Proofs.Layout.Fields
import ClosureEnv.Proofs.Plan.Sound

/-!
# Making an environment

What making the environment of one plan does (`makeEnv_spec`): it mints a name or takes over that of
the prior layout, notes what happened, and fails only if the name is taken.
-/

namespace ClosureEnv.Synthesis

variable {t : ScopeTree} {ps : PlanTable} {generation : Nat}

namespace Make

variable {α β : Type} {x : Make α} {f : α → Make β} {st st' : State} {a : α}

/-- The second step goes on from where the first one ends. -/
theorem bind_run : (x >>= f) st = (x st >>= fun q => f q.1 q.2) :=
  rfl

/-- A step that succeeds is followed by the next one. -/
theorem bind_of_ok (h : x st = .ok (a, st')) : (x >>= f) st = f a st' := by
  rw [bind_run, h]
  rfl

/-- What is known of the state goes to the next step. -/
theorem get_bind {f : State → Make β} : ((get : Make State) >>= f) st = f st st :=
  rfl

/-- A step that leaves the state alone and succeeds is followed by the next one. -/
theorem bind_lift_of_ok {x : Lower α} (h : x = .ok a) :
    ((liftM x : Make α) >>= f) st = f a st := by
  rw [h]
  rfl

/-- Two steps succeed when both do. -/
theorem bind_eq_ok {b : β} : (x >>= f) st = .ok (b, st') ↔
    ∃ a st₁, x st = .ok (a, st₁) ∧ f a st₁ = .ok (b, st') := by
  rw [bind_run, Lower.bind_eq_ok]
  exact ⟨fun ⟨q, hq, h⟩ => ⟨q.1, q.2, hq, h⟩, fun ⟨a, st₁, hx, h⟩ => ⟨(a, st₁), hx, h⟩⟩

end Make

/-- A name that is minted for a plan, with the count of names before and after. -/
inductive MintOf (t : ScopeTree) (generation : Nat) (p : Plan) : Nat → String → Nat → Prop where
  | shared (count : Nat) : p.identity = .static →
      MintOf t generation p count Name.sharedStaticEnv count
  | static (count f : Nat) (fn : Function) : p.owner = some f → t.fns[f]? = some fn →
      p.identity = .staticGeneric fn.name →
      MintOf t generation p count (Name.staticGenericEnv fn.ordinal generation) count
  | scope (count s : Nat) (key : String) : p.identity = .scope key →
      MintOf t generation p count (Name.scopeEnv s count generation) (count + 1)

/-- A name that is minted is that of the shared environment or tells the generation. -/
theorem MintOf.shared_or_minted {p : Plan} {c c' : Nat} {n : String}
    (h : MintOf t generation p c n c') :
    (p.identity = .static ∧ n = Name.sharedStaticEnv) ∨
      (p.identity ≠ .static ∧ Name.Minted generation n) := by
  cases h with
  | shared hstatic => exact .inl ⟨hstatic, rfl⟩
  | static f fn _ _ hident =>
    exact .inr ⟨fun heq => (by cases hident.symm.trans heq), .static _⟩
  | scope o key hident =>
    exact .inr ⟨fun heq => (by cases hident.symm.trans heq), .scope _ _⟩

/-- A name that is minted is one of an environment. -/
theorem MintOf.ofEnv {p : Plan} {c c' : Nat} {n : String} (h : MintOf t generation p c n c') :
    Name.OfEnv n :=
  h.shared_or_minted.elim (fun h => .inl h.2) fun h => .inr ⟨_, h.2⟩

/-- The count of names goes up. -/
theorem MintOf.le {p : Plan} {c c' : Nat} {n : String} (h : MintOf t generation p c n c') :
    c ≤ c' := by
  cases h with
  | shared | static => exact Nat.le_refl _
  | scope => exact Nat.le_succ _

/-- What becomes of the environment of a plan whose desired fields are `fields`: its name, its
fields, the generation that minted the name, and the state. -/
inductive Settles (t : ScopeTree) (generation : Nat) (p : Plan) (fields : List LayoutField)
    (st : State) : Decision → String → List EnvField → Nat → State → Prop where
  | mint (name : String) (count : Nat) : MintOf t generation p st.counter name count →
      Settles t generation p fields st .mint name (newFields p fields) generation
        { st with
          counter := count
          transitions := st.transitions ++ [(p.identity.text, .created name)] }
  | reuse (prior : Layout) (appended : List LayoutField) :
      Settles t generation p fields st (.reuse prior appended) prior.name
        (keptFields p fields prior appended) prior.mintedIn
        { st with
          transitions := st.transitions ++ [(p.identity.text,
            if appended.isEmpty then .unchanged prior.name
            else .extended prior.name (appended.map LayoutField.name))] }
  | supersede (prior : Layout) (reason : Change) (name : String) (count : Nat) :
      MintOf t generation p st.counter name count →
      Settles t generation p fields st (.supersede prior reason) name (newFields p fields)
        generation
        { st with
          counter := count
          history := st.history ++ [(p.identity.text, { prior with state := .superseded })]
          transitions := st.transitions ++ [(p.identity.text, .superseded prior.name name reason)]
          degraded := st.degraded ++
            [(p.id, ⟨p.identity.text, prior.name, name, reason, []⟩)] }

/-- A plan that can be given a name. -/
def Nameable (t : ScopeTree) (p : Plan) : Prop :=
  p.identity = .static ∨
    (∃ f fn, p.owner = some f ∧ t.fns[f]? = some fn ∧ p.identity = .staticGeneric fn.name) ∨
    ∃ s sc, p.origin = some s ∧ t.scopes[s]? = some sc ∧ p.identity = .scope sc.key

/-- Sound plans can be given names. -/
theorem nameable_of_sound (hps : ps.Sound t) {i : Nat} {p : Plan}
    (hp : ps.plans[i]? = some p) : Nameable t p := by
  cases ho : p.origin with
  | some s =>
    obtain ⟨-, sc, hsc, hident⟩ := hps.linking.placed.origin i p s hp ho
    exact .inr (.inr ⟨s, sc, ho, hsc, hident⟩)
  | none =>
    rcases (hps.empty i p hp ho).kind with ⟨hident, -⟩ | ⟨f, fn, hown, hfn, hident, -⟩
    · exact .inl hident
    · exact .inr (.inl ⟨f, fn, hown, hfn, hident⟩)

/-- A plan that can be given a name gets one. -/
theorem mint_spec {p : Plan} (hp : Nameable t p) (generation : Nat) (st : State) :
    ∃ name count, mint t generation p st = .ok (name, { st with counter := count }) ∧
      MintOf t generation p st.counter name count := by
  rcases hp with hident | ⟨f, fn, hown, hfn, hident⟩ | ⟨s, sc, ho, hsc, hident⟩
  · exact ⟨_, _, by rw [mint, hident]; rfl, .shared _ hident⟩
  · refine ⟨_, _, ?_, .static _ f fn hown hfn hident⟩
    unfold mint
    rw [hident]
    dsimp only
    rw [hown, Make.bind_lift_of_ok (Lower.orInconsistent_eq_ok.mpr rfl),
      Make.bind_lift_of_ok (ScopeTree.function_eq_ok.mpr hfn)]
    rfl
  · refine ⟨_, _, ?_, .scope _ sc.id sc.key hident⟩
    unfold mint
    rw [hident]
    dsimp only
    rw [ho, Make.bind_lift_of_ok (Lower.orInconsistent_eq_ok.mpr rfl),
      Make.bind_lift_of_ok (ScopeTree.scope_eq_ok.mpr hsc)]
    rfl

/-- Every decision can be carried out. -/
theorem settle_spec {p : Plan} (hp : Nameable t p) (generation : Nat) (fields : List LayoutField)
    (decision : Decision) (st : State) :
    ∃ name fs m st', settle t generation p fields decision st = .ok ((name, fs, m), st') ∧
      Settles t generation p fields st decision name fs m st' := by
  obtain ⟨name, count, hrun, hmint⟩ := mint_spec hp generation st
  cases decision with
  | mint =>
    refine ⟨_, _, _, _, ?_, .mint name count hmint⟩
    unfold settle
    dsimp only
    rw [Make.bind_of_ok hrun]
    rfl
  | reuse prior appended => exact ⟨_, _, _, _, rfl, .reuse prior appended⟩
  | supersede prior reason =>
    refine ⟨_, _, _, _, ?_, .supersede prior reason name count hmint⟩
    unfold settle
    dsimp only
    rw [Make.bind_of_ok hrun]
    rfl

/-- Taking a name leaves all else alone. -/
theorem declareName_run (name : String) (st : State) : declareName name st =
    (st.symbols.declare name).map fun symbols => ((), { st with symbols }) := by
  unfold declareName
  rw [Make.get_bind]
  cases st.symbols.declare name <;> rfl

/-- The environment of a plan. -/
def envOf (options : LowerOptions) (p : Plan) (name : String) (fields : List EnvField)
    (parent : Option String) (mintedIn : Nat) : EnvType :=
  ⟨p.id, name, p.identity, p.repr, fields, parent, p.isSingleton,
    options.incremental && p.repr == .value, mintedIn⟩

/-- What is decided on a plan. -/
def decisionOn (options : LowerOptions) (baseline : Option Baseline) (p : Plan)
    (fields : List LayoutField) (parent : Option String) : Decision :=
  decideLayout (baseline.bind (·.active? p.identity.text))
    ⟨p.repr, fields, parent, p.isSingleton, options.incremental && p.repr == .value⟩

/-- Making the environment of a plan settles what is decided on it and takes its name, which has to
be free. -/
theorem makeEnv_spec {p : Plan} (hp : Nameable t p) (options : LowerOptions)
    (baseline : Option Baseline) (generation : Nat) {st : State} {fields : List LayoutField}
    {parent : Option String} (hf : desiredFields t p = .ok fields)
    (hparent : parentName st.envs p = .ok parent) :
    ∃ name fs m st₁, Settles t generation p fields st (decisionOn options baseline p fields parent)
        name fs m st₁ ∧
      makeEnv t options baseline generation p st =
        (st₁.symbols.declare name).map fun symbols => ((), { st₁ with
          symbols
          envs := st₁.envs.push (envOf options p name fs parent m) }) := by
  obtain ⟨name, fs, m, st₁, hrun, hsettles⟩ :=
    settle_spec hp generation fields (decisionOn options baseline p fields parent) st
  refine ⟨name, fs, m, st₁, hsettles, ?_⟩
  unfold makeEnv
  rw [Make.bind_lift_of_ok hf, Make.get_bind,
    Make.bind_lift_of_ok hparent]
  unfold decisionOn at hrun
  dsimp only
  rw [Make.bind_of_ok hrun]
  cases hd : st₁.symbols.declare name with
  | error e =>
    rw [show (declareName name >>= _) st₁ = (declareName name st₁ >>= _) from rfl, declareName_run,
      hd]
    rfl
  | ok symbols =>
    rw [Make.bind_of_ok (by rw [declareName_run, hd]; rfl)]
    rfl

end ClosureEnv.Synthesis
