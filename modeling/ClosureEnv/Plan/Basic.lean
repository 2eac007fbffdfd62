import ClosureEnv.Fault
import ClosureEnv.Order.SortedMap
import ClosureEnv.Scope.Bound

/-!
# Plans of environments

A plan says what one environment holds: the captured variables of the scope whose entry brings it
into existence, and a link to the environment further out. Plans know their parents only, so a
table of plans is a forest when every chain of parents ends; `checkForest` tells, and `hops` is the
way along a chain.
-/

namespace ClosureEnv

/-- A plan, by its position in the table. -/
abbrev PlanId := Nat

/-- How an environment is kept. -/
inductive Representation where
  /-- In the frame that entered its scope. -/
  | value
  /-- On the heap, for as long as something refers to it. -/
  | reference
  deriving DecidableEq, Repr, Inhabited

/-- The representation as it is printed. -/
def Representation.describe : Representation → String
  | value => "value"
  | reference => "reference"

/-- The name of the representation. -/
def Representation.name : Representation → String
  | value => "Value"
  | reference => "Reference"

/-- What an environment stands for, whatever its name is in a generation. -/
inductive EnvIdentity where
  /-- The variables of the scope under a key. -/
  | scope (key : String)
  /-- The empty environment that closures without captures share. -/
  | static
  /-- The empty environments of the closures of one generic function. -/
  | staticGeneric (fn : String)
  deriving DecidableEq, Repr, Inhabited

/-- The identity as baselines write it. -/
def EnvIdentity.text : EnvIdentity → String
  | scope key => "scope:" ++ key
  | static => "static"
  | staticGeneric fn => "static:" ++ fn

/-- What one environment holds and where it comes from. -/
structure Plan where
  id : PlanId
  identity : EnvIdentity
  /-- The scope whose entry brings the environment into existence; the static ones have none. -/
  origin : Option ScopeId
  /-- The scopes further in whose variables it holds too. -/
  merged : List ScopeId
  owner : Option FnId
  repr : Representation
  /-- The captured variables that it holds, in increasing order. -/
  slots : List VarId
  /-- The environment further out that it refers to. -/
  parent : Option PlanId
  /-- Whether there is only one instance. -/
  isSingleton : Bool
  deriving DecidableEq, Repr, Inhabited

/-- Where a closure gets its environment from. -/
inductive ClosureBinding where
  /-- The innermost environment that holds something the closure needs. -/
  | direct (p : PlanId)
  /-- The only instance of an empty environment. -/
  | singleton (p : PlanId)
  /-- A new instance of an empty environment. -/
  | fresh (p : PlanId)
  deriving DecidableEq, Repr, Inhabited

/-- The plan of the environment of a closure. -/
def ClosureBinding.plan : ClosureBinding → PlanId
  | direct p | singleton p | fresh p => p

/-- The environments of a unit. -/
structure PlanTable where
  plans : Array Plan
  /-- The plan that holds the variables of each scope. -/
  scopePlan : SortedMap ScopeId PlanId
  /-- The plan that holds each captured variable. -/
  varPlan : SortedMap VarId PlanId
  bindings : SortedMap ClosureId ClosureBinding
  /-- The plans that each closure must be able to reach. -/
  needed : SortedMap ClosureId (List PlanId)
  deriving Inhabited

namespace PlanTable

/-- The table without plans. -/
def empty : PlanTable :=
  ⟨#[], [], [], [], []⟩

variable (t : PlanTable)

/-- A plan by its number. -/
def plan (p : PlanId) : Lower Plan :=
  orInconsistent (.unknownPlan p) t.plans[p]?

/-- The plan that holds the variables of a scope. -/
def forScope? (s : ScopeId) : Option Plan :=
  (t.scopePlan.find? s).bind fun p => t.plans[p]?

/-- The plans that a closure must be able to reach. -/
def neededBy (c : ClosureId) : List PlanId :=
  (t.needed.find? c).getD []

/-- The parents on the way from `cur` to `goal`, within `bound` steps; `start` is where the way
began. -/
def hopsFrom (start goal : PlanId) : Nat → PlanId → Lower (List PlanId)
  | bound, cur =>
    if cur == goal then return []
    else do
      match (← t.plan cur).parent with
      | none => inconsistent (.planUnreachable goal start)
      | some p =>
        match bound with
        | 0 => inconsistent .cyclicHops
        | bound + 1 => return p :: (← hopsFrom start goal bound p)

/-- The parents on the way from one plan to another, the last being the goal. -/
def hops (start goal : PlanId) : Lower (List PlanId) :=
  t.hopsFrom start goal t.plans.size start

/-- Follows a chain of parents to its end, within `bound` steps; `start` is where it began. -/
def checkChain (start : PlanId) : Nat → Option PlanId → Lower Unit
  | _, none => return ()
  | 0, some _ => inconsistent (.cyclicForest start)
  | bound + 1, some p => do checkChain start bound (← t.plan p).parent

/-- Whether every chain of parents ends. -/
def checkForest : Lower Unit :=
  t.plans.toList.forM fun p => t.checkChain p.id t.plans.size p.parent

end PlanTable

end ClosureEnv
