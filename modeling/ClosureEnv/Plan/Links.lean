import ClosureEnv.Capture
import ClosureEnv.Plan.Basic

/-!
# Links between environments

A closure holds the innermost environment that it needs, and reaches the others by way of parents.
So every environment between them gets the next one further out as its parent. An environment that
is made inside a closure needs its parent there, and so does a closure what the closures in it
need: this can call for further links, and goes on until nothing changes.
-/

namespace ClosureEnv.PlanTable

/-- The depth and the number of the scope of a plan. -/
def originKey (t : ScopeTree) (ps : PlanTable) (p : PlanId) : Lower (Nat × ScopeId) := do
  match (← ps.plan p).origin with
  | some s => return ((← t.scope s).depth, s)
  | none => return (0, 0)

/-- Whether one place comes before another. -/
def keyLt (x y : Nat × ScopeId) : Bool :=
  x.1 < y.1 || (x.1 == y.1 && x.2 < y.2)

/-- The innermost of some plans: the first of those with the greatest key. -/
def innermost (t : ScopeTree) (ps : PlanTable) (plans : List PlanId) : Lower (Option PlanId) := do
  let keyed ← plans.mapM fun p => do return (← ps.originKey t p, p)
  return (keyed.foldl (fun best x =>
    match best with
    | none => some x
    | some b => if keyLt b.1 x.1 then some x else best) none).map Prod.snd

/-- The first plan other than `p` of a scope at or above `cur`, within `bound` steps. -/
def enclosingFrom (t : ScopeTree) (ps : PlanTable) (p : PlanId) :
    Nat → Option ScopeId → Lower (Option PlanId)
  | _, none => return none
  | 0, some _ => return none
  | bound + 1, some s =>
    match ps.scopePlan.find? s with
    | some q => if q != p then return some q else do
        enclosingFrom t ps p bound (← t.scope s).parent
    | none => do enclosingFrom t ps p bound (← t.scope s).parent

/-- The nearest plan whose scope encloses that of `p`. -/
def nearestEnclosing (t : ScopeTree) (ps : PlanTable) (p : PlanId) : Lower (Option PlanId) := do
  match (← ps.plan p).origin with
  | none => return none
  | some s => ps.enclosingFrom t p (t.scopes.size + 1) (← t.scope s).parent

/-- The plans from `cur` outwards, until none of `left` is left, within `bound` steps. -/
def chainFrom (t : ScopeTree) (ps : PlanTable) (c : ClosureId) :
    Nat → PlanId → List PlanId → Lower (List (PlanId × PlanId))
  | _, _, [] => return []
  | 0, cur, _ => inconsistent (.planNotEnclosing c cur)
  | bound + 1, cur, left => do
    match ← ps.nearestEnclosing t cur with
    | none => inconsistent (.planNotEnclosing c cur)
    | some p => return (cur, p) :: (← chainFrom t ps c bound p (left.filter (· != p)))

/-- The links, from inside out, that a closure calls for. -/
def linksFor (t : ScopeTree) (ps : PlanTable) (c : ClosureId) :
    Lower (List (PlanId × PlanId)) := do
  let needed := ps.neededBy c
  match ← ps.innermost t needed with
  | none => return []
  | some d => ps.chainFrom t c (t.scopes.size + 1) d (needed.filter (· != d))

/-- Sets the parent of a plan. -/
def link (ps : PlanTable) (l : PlanId × PlanId) : PlanTable :=
  { ps with plans := ps.plans.modify l.1 fun p => { p with parent := some l.2 } }

/-- The scope of a plan. -/
def origin? (ps : PlanTable) (p : PlanId) : Option ScopeId :=
  ps.plans[p]?.bind Plan.origin

/-- The plans that closures have to carry for the sake of a plan made inside of them, which refers
to its parent. -/
def carriedForParent (t : ScopeTree) (ps : PlanTable) (p : Plan) :
    Lower (List (ClosureId × PlanId)) :=
  match p.origin, p.parent, p.parent.bind ps.origin? with
  | some s, some parent, some outer =>
    return (← t.closuresBetween s outer).map (·, parent)
  | _, _, _ => return []

/-- The plans that closures have to carry for the sake of a closure made inside of them. -/
def carriedForClosure (t : ScopeTree) (ps : PlanTable) (c : Closure) :
    Lower (List (ClosureId × PlanId)) := do
  let all ← (ps.neededBy c.id).mapM fun p =>
    match ps.origin? p with
    | some outer => return (← t.closuresBetween c.declaredIn outer).map (·, p)
    | none => return []
  return all.flatten

/-- Notes that a closure needs a plan. -/
def need (ps : PlanTable) (n : ClosureId × PlanId) : PlanTable :=
  { ps with needed := ps.needed.insert n.1 (SortedSet.insert n.2 (ps.neededBy n.1)) }

/-- Whether a link is there already. -/
def isLinked (ps : PlanTable) (l : PlanId × PlanId) : Bool :=
  (ps.plans[l.1]?.bind Plan.parent) == some l.2

/-- Whether a need is noted already. -/
def isNeeded (ps : PlanTable) (n : ClosureId × PlanId) : Bool :=
  (ps.neededBy n.1).contains n.2

/-- One round of linking: the table after it, and whether anything changed. -/
def linkRound (t : ScopeTree) (ps : PlanTable) : Lower (PlanTable × Bool) := do
  let links := (← t.closures.toList.mapM fun c => ps.linksFor t c.id).flatten
  let linked := links.foldl link ps
  let forParents := (← linked.plans.toList.mapM (linked.carriedForParent t)).flatten
  let forClosures := (← t.closures.toList.mapM (linked.carriedForClosure t)).flatten
  let needs := forParents ++ forClosures
  return (needs.foldl need linked,
    links.any (fun l => !ps.isLinked l) || needs.any fun n => !linked.isNeeded n)

/-- Rounds of linking until one changes nothing, `bound` of them at most. -/
def linkRounds (t : ScopeTree) : Nat → PlanTable → Lower PlanTable
  | 0, ps => return ps
  | bound + 1, ps => do
    let (next, changed) ← ps.linkRound t
    if changed then linkRounds t bound next else return next

/-- How many rounds of linking there can be: each but the last sets a parent or notes a need, and
both stay. -/
def roundBound (t : ScopeTree) (ps : PlanTable) : Nat :=
  let n := ps.plans.size
  n + (t.scopes.size + t.closures.size) * n + 1

/-- Binds the closures that need something to the innermost environment that they need. -/
def bindDirect (t : ScopeTree) (ps : PlanTable) (c : Closure) : Lower PlanTable := do
  match ← ps.innermost t (ps.neededBy c.id) with
  | some d => return { ps with bindings := ps.bindings.insert c.id (.direct d) }
  | none => return ps

/-- Sets the parents, and binds the closures that need something. -/
def linkParents (t : ScopeTree) (ps : PlanTable) : Lower PlanTable := do
  let ps ← linkRounds t (ps.roundBound t) ps
  t.closures.toList.foldlM (bindDirect t) ps

end ClosureEnv.PlanTable
