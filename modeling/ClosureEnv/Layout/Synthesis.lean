import ClosureEnv.Layout.Transition
import ClosureEnv.Plan.Candidate

/-!
# Synthesis of environments

Plans become types of environments, in their order, each reconciled with the live layout of its
identity. What the baseline has and the plans do not is carried on while its scope is there, and
retired otherwise. All names that are made go through one symbol table.
-/

namespace ClosureEnv

/-- The environments of a generation and what became of the one before. -/
structure Synthesis where
  generation : Nat
  /-- The environments, by plan. -/
  envs : Array EnvType
  lambdaNames : SortedMap ClosureId String
  report : Report
  /-- The layouts that stay live though no plan made them this time. -/
  carried : List NamedLayout
  /-- The layouts that were superseded or retired, oldest first. -/
  history : List NamedLayout
  deriving Inhabited

namespace Synthesis

/-- The environment of a plan. -/
def env (s : Synthesis) (p : PlanId) : Lower EnvType :=
  orInconsistent (.planWithoutType p) s.envs[p]?

/-- What has been made so far. -/
structure State where
  symbols : SymbolTable
  envs : Array EnvType
  /-- How many scopes have got a new name. -/
  counter : Nat
  transitions : List (String × Transition)
  /-- The degradations so far, by plan; what depends on them is not known yet. -/
  degraded : List (PlanId × Degradation)
  history : List NamedLayout

/-- A step of synthesis. -/
abbrev Make := StateT State Lower

/-- Takes a made name. -/
def declareName (name : String) : Make Unit := do
  let s ← get
  set { s with symbols := ← s.symbols.declare name }

/-- The symbol table with the names of the functions and the globals. -/
def sourceSymbols (t : ScopeTree) : SymbolTable :=
  let named := t.fns.foldl (fun s f => s.reserve f.name) (.empty t.unit)
  t.globals.foldl (fun s g => s.reserve g.name) named

/-- Names the lambda of a closure. -/
def nameLambda (t : ScopeTree) (c : Closure) : Make (ClosureId × String) := do
  let name := Name.lambda (← t.function c.owner).name c.ordinal
  declareName name
  return (c.id, name)

/-- The desired fields of a plan. -/
def desiredFields (t : ScopeTree) (p : Plan) : Lower (List LayoutField) := do
  let vars ← p.slots.mapM t.var
  return List.zipWith (fun name v => ⟨name, v.ty⟩) (Name.fields (vars.map Variable.name)) vars

/-- The name of the parent of a plan, which has to be made already. -/
def parentName (envs : Array EnvType) (p : Plan) : Lower (Option String) :=
  match p.parent with
  | none => return none
  | some q => do
    let e ← orInconsistent (.parentAfterChild q p.id) envs[q]?
    return some e.name

/-- A new name for the environment of a plan. -/
def mint (t : ScopeTree) (generation : Nat) (p : Plan) : Make String := do
  match p.identity with
  | .static => return Name.sharedStaticEnv
  | .staticGeneric _ =>
    let owner ← orInconsistent .staticWithoutOwner p.owner
    return Name.staticGenericEnv (← t.function owner).ordinal generation
  | .scope _ =>
    let origin ← orInconsistent .scopePlanWithoutOrigin p.origin
    let scope ← t.scope origin
    let s ← get
    set { s with counter := s.counter + 1 }
    return Name.scopeEnv scope.id s.counter generation

/-- Notes what happened to an identity. -/
def note (identity : String) (transition : Transition) : Make Unit :=
  modify fun s => { s with transitions := s.transitions ++ [(identity, transition)] }

/-- Adds a layout to the history. -/
def archive (identity : String) (layout : Layout) (state : LayoutState) : Make Unit :=
  modify fun s => { s with history := s.history ++ [(identity, { layout with state })] }

/-- The name, the fields and the minting generation of a plan whose desired fields are `fields`. -/
def settle (t : ScopeTree) (generation : Nat) (p : Plan) (fields : List LayoutField)
    (decision : Decision) : Make (String × List EnvField × Nat) := do
  let identity := p.identity.text
  let slotOf (name : String) : Option VarId :=
    (fields.findIdx? (·.name == name)).bind fun i => p.slots[i]?
  let fresh : List EnvField :=
    List.zipWith (fun f v => ⟨f.name, f.ty, some v⟩) fields p.slots
  match decision with
  | .mint =>
    let name ← mint t generation p
    note identity (.created name)
    return (name, fresh, generation)
  | .reuse prior appended =>
    let kept : List EnvField :=
      (prior.fields ++ appended).map fun f => ⟨f.name, f.ty, slotOf f.name⟩
    note identity <|
      if appended.isEmpty then .unchanged prior.name
      else .extended prior.name (appended.map LayoutField.name)
    return (prior.name, kept, prior.mintedIn)
  | .supersede prior reason =>
    let name ← mint t generation p
    archive identity prior .superseded
    note identity (.superseded prior.name name reason)
    modify fun s => { s with
      degraded := s.degraded ++ [(p.id, ⟨identity, prior.name, name, reason, []⟩)] }
    return (name, fresh, generation)

/-- Makes the environment of a plan. -/
def makeEnv (t : ScopeTree) (options : LowerOptions) (baseline : Option Baseline)
    (generation : Nat) (p : Plan) : Make Unit := do
  let fields ← desiredFields t p
  let parent ← parentName (← get).envs p
  let isExpandable := options.incremental && p.repr == .value
  let prior := baseline.bind (·.active? p.identity.text)
  let decision := decideLayout prior ⟨p.repr, fields, parent, p.isSingleton, isExpandable⟩
  let (name, fields, mintedIn) ← settle t generation p fields decision
  declareName name
  let env : EnvType :=
    ⟨p.id, name, p.identity, p.repr, fields, parent, p.isSingleton, isExpandable, mintedIn⟩
  modify fun s => { s with envs := s.envs.push env }

/-- What follows a prefix. -/
def stripPrefix? (front text : String) : Option String :=
  if front.toList.isPrefixOf text.toList then
    some (String.ofList (text.toList.drop front.toList.length))
  else none

/-- Whether what an identity stands for is still in the unit. -/
def originExists (t : ScopeTree) (identity : String) : Bool :=
  match stripPrefix? "scope:" identity with
  | some key => (t.findScope? key).isSome
  | none =>
    match stripPrefix? "static:" identity with
    | some fn => t.fns.any (·.name == fn)
    | none => identity == "static"

/-- Carries on or retires a live layout that no plan made. -/
def carry (t : ScopeTree) (produced : List String) (e : NamedLayout) :
    Make (Option NamedLayout) := do
  let (identity, layout) := e
  if produced.contains identity || layout.state != .active then return none
  else if originExists t identity then
    declareName layout.name
    note identity (.carried layout.name)
    return some e
  else
    note identity (.retired layout.name)
    archive identity layout .retired
    return none

/-- Whether the chain of parents from `cur` on comes by `root`, within `bound` steps. -/
def chainMeets (ps : PlanTable) (root : PlanId) : Nat → PlanId → Bool
  | bound, cur =>
    cur == root ||
      match ps.plans[cur]?.bind Plan.parent, bound with
      | some q, bound + 1 => chainMeets ps root bound q
      | _, _ => false

/-- The environments chained below that of a plan and the lambdas made with any of them. -/
def dependents (t : ScopeTree) (ps : PlanTable) (envs : Array EnvType)
    (lambdaNames : SortedMap ClosureId String) (root : PlanId) : List String :=
  let meets := chainMeets ps root ps.plans.size
  let chained := ps.plans.toList.filterMap fun p =>
    if p.id != root && meets p.id then envs[p.id]?.map EnvType.name else none
  let lambdas := t.closures.toList.filterMap fun c =>
    match ps.bindings.find? c.id with
    | some b => if meets b.plan then lambdaNames.find? c.id else none
    | none => none
  SortedSet.ofList (chained ++ lambdas)

/-- All steps of synthesis: the names of the lambdas and the layouts that are carried on. -/
def makeAll (t : ScopeTree) (ps : PlanTable) (options : LowerOptions)
    (baseline : Option Baseline) (generation : Nat) :
    Make (SortedMap ClosureId String × List NamedLayout) := do
  let lambdas ← t.closures.toList.mapM (nameLambda t)
  ps.plans.toList.forM (makeEnv t options baseline generation)
  let produced := ps.plans.toList.map (·.identity.text)
  let prior := (baseline.map Baseline.envs).getD []
  let carried ← prior.filterMapM (carry t produced)
  return (.ofList lambdas, carried)

end Synthesis

/-- The environments of a unit, reconciled with the generation before. -/
def synthesize (t : ScopeTree) (ps : PlanTable) (options : LowerOptions)
    (baseline : Option Baseline) : Lower Synthesis := do
  let generation := nextGeneration baseline
  let start : Synthesis.State :=
    ⟨Synthesis.sourceSymbols t, #[], 0, [], [], (baseline.map Baseline.history).getD []⟩
  let ((lambdaNames, carried), s) ←
    (Synthesis.makeAll t ps options baseline generation).run start
  let degraded := s.degraded.map fun (p, d) =>
    { d with dependents := Synthesis.dependents t ps s.envs lambdaNames p }
  return {
    generation
    envs := s.envs
    lambdaNames
    report := ⟨generation, s.transitions, degraded⟩
    carried
    history := s.history }

end ClosureEnv
