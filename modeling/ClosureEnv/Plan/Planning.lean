import ClosureEnv.Graph.Rounds
import ClosureEnv.Plan.Candidate
import ClosureEnv.Plan.Links

/-!
# Planning the environments of a unit

Candidates become plans in the order of their scopes, plans are linked, whatever an escaping
closure can reach is kept on the heap, and closures that need nothing get an empty environment: one
of their own function if they use a type parameter of it, the shared one otherwise.
-/

namespace ClosureEnv.PlanTable

/-- Makes the plan of a candidate. -/
def addCandidate (t : ScopeTree) (ps : PlanTable) (e : ScopeId × Candidate) : Lower PlanTable := do
  let s ← t.scope e.1
  let c := e.2
  let id := ps.plans.size
  return { ps with
    scopePlan := (e.1 :: c.merged).foldl (fun m x => m.insert x id) ps.scopePlan
    varPlan := c.slots.foldl (fun m v => m.insert v id) ps.varPlan
    plans := ps.plans.push
      ⟨id, .scope s.key, some e.1, c.merged, some s.owner, c.repr, c.slots, none, false⟩ }

/-- Notes the plans of the variables that a closure needs. -/
def addNeeds (a : Captures) (ps : PlanTable) (c : Closure) : Lower PlanTable := do
  let plans ← (a.needs c.id).mapM fun v =>
    orInconsistent (.variableWithoutPlan v) (ps.varPlan.find? v)
  return { ps with needed := ps.needed.insert c.id (SortedSet.ofList plans) }

/-- The plan that an escaping closure is bound to directly. -/
def escapingPlan? (ps : PlanTable) (c : Closure) : Option PlanId :=
  match c.escapes, ps.bindings.find? c.id with
  | true, some (.direct p) => some p
  | _, _ => none

/-- The plans that have to be kept on the heap: those that say so, those of escaping closures, and
the parents of them. -/
def heapPlans (t : ScopeTree) (ps : PlanTable) : List PlanId :=
  let stated := (ps.plans.toList.filter (·.repr == .reference)).map Plan.id
  let escaping := t.closures.toList.filterMap ps.escapingPlan?
  Graph.reachable (fun p => ((ps.plans[p]?.bind Plan.parent).toList)) ps.plans.size
    (escaping ++ stated)

/-- Settles how each environment is kept. -/
def assignRepresentations (t : ScopeTree) (ps : PlanTable) : PlanTable :=
  let heap := ps.heapPlans t
  { ps with plans := ps.plans.map fun p =>
      if heap.contains p.id then { p with repr := .reference } else p }

/-- Whether a parameter or a local of a closure, or of one nested in it, has a type parameter in
its type. -/
def usesTypeParam (t : ScopeTree) (c : Closure) : Bool :=
  t.vars.any fun v => t.encloses c.scope v.scope && v.ty.isGeneric

/-- The closures that are not bound yet, each with its function if it needs an empty environment of
that function. -/
def stateless (t : ScopeTree) (ps : PlanTable) : Lower (List (ClosureId × Option FnId)) :=
  (t.closures.toList.filter fun c => !ps.bindings.contains c.id).mapM fun c => do
    let f ← t.function c.owner
    return (c.id, if f.isGeneric && usesTypeParam t c then some c.owner else none)

/-- An empty plan. -/
def emptyPlan (id : PlanId) (identity : EnvIdentity) (owner : Option FnId)
    (isSingleton : Bool) : Plan :=
  ⟨id, identity, none, [], owner, .reference, [], none, isSingleton⟩

/-- Adds an empty plan and binds closures to it. -/
def addEmpty (ps : PlanTable) (identity : EnvIdentity) (owner : Option FnId) (isSingleton : Bool)
    (closures : List ClosureId) : PlanTable :=
  let id := ps.plans.size
  let binding : ClosureBinding := if isSingleton then .singleton id else .fresh id
  { ps with
    plans := ps.plans.push (emptyPlan id identity owner isSingleton)
    bindings := closures.foldl (fun m c => m.insert c binding) ps.bindings }

/-- Binds the closures that need nothing. -/
def bindStateless (t : ScopeTree) (ps : PlanTable) : Lower PlanTable := do
  let closures ← ps.stateless t
  let owners := SortedSet.ofList (closures.filterMap Prod.snd)
  let ps ← owners.foldlM (fun ps f => do
    let mine := (closures.filter fun c => c.2 == some f).map Prod.fst
    return ps.addEmpty (.staticGeneric (← t.function f).name) (some f) false mine) ps
  match (closures.filter fun c => c.2 == none).map Prod.fst with
  | [] => return ps
  | shared => return ps.addEmpty .static none true shared

end PlanTable

/-- The environments of a unit. -/
def planEnvironments (t : ScopeTree) (a : Captures) (options : LowerOptions) : Lower PlanTable := do
  let candidates ← Candidates.ofCaptures t a
  let candidates ← match options.merge with
    | .never => pure candidates
    | .contained => candidates.mergeContained t a
  let ps ← candidates.foldlM (PlanTable.addCandidate t) .empty
  let ps ← t.closures.toList.foldlM (PlanTable.addNeeds a) ps
  let ps ← ps.linkParents t
  let ps ← (ps.assignRepresentations t).bindStateless t
  ps.checkForest
  return ps

end ClosureEnv
