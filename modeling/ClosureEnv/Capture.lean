import ClosureEnv.Order.SortedSet
import ClosureEnv.Scope.Tree

/-!
# Captures

A free variable of a closure is forwarded by every scope on the way from the closure up to the
scope that declares the variable. Each closure whose scope lies on that way needs the variable too,
because its body makes the closure further in. `Captures.analyze` collects these steps, and
all else is read off them.
-/

namespace ClosureEnv

/-- A scope on the way from a closure to one of its free variables, and the closure whose scope it
is, if any. -/
structure CaptureStep where
  var : VarId
  scope : ScopeId
  user : Option ClosureId
  deriving DecidableEq, Repr

/-- What closures capture. -/
structure Captures where
  /-- The ways from the closures to their free variables. -/
  steps : List CaptureStep
  /-- The variables that an escaping closure needs. -/
  escapingVars : List VarId
  /-- The scopes on the way from an escaping closure to a variable that it needs. -/
  escapingScopes : List ScopeId

/-- A variable that a closure needs. -/
structure Capture where
  var : VarId
  declaredIn : ScopeId
  closure : ClosureId
  /-- Whether the closure itself mentions the variable. -/
  isDirect : Bool
  escapes : Bool
  deriving DecidableEq, Repr

namespace ScopeTree

variable (t : ScopeTree)

/-- The scopes from `cur` up to `stop`, excluded, or to a root, `bound` of them at most. -/
def wayFrom (stop : ScopeId) : Nat → ScopeId → Lower (List ScopeId)
  | 0, _ => return []
  | bound + 1, cur =>
    if cur == stop then return []
    else do
      let s ← t.scope cur
      match s.parent with
      | some p => return cur :: (← wayFrom stop bound p)
      | none => return [cur]

/-- The scopes from `s` up to `stop`, excluded, or to a root. -/
def way (s stop : ScopeId) : Lower (List ScopeId) :=
  t.wayFrom stop (t.scopes.size + 1) s

/-- The steps from a closure to one of its free variables. -/
def captureSteps (c : Closure) (v : VarId) : Lower (List CaptureStep) := do
  let var ← t.var v
  if t.isStrictAncestor var.scope c.scope then
    return (← t.way c.scope var.scope).map fun s =>
      ⟨v, s, t.scopes[s]?.bind Scope.closure⟩
  else inconsistent (.captureUnresolved var.name c.id)

end ScopeTree

/-- The variables that a closure needs, by the steps. -/
def CaptureStep.needs (steps : List CaptureStep) (c : ClosureId) : List VarId :=
  SortedSet.ofList <| steps.filterMap fun s => if s.user == some c then some s.var else none

namespace Captures

/-- What the closures of a unit capture. -/
def analyze (t : ScopeTree) : Lower Captures := do
  let closures := t.closures.toList
  let steps ← closures.mapM fun c => do
    return (← c.freeVars.mapM (t.captureSteps c)).flatten
  let steps := steps.flatten
  let escaping ← (closures.filter Closure.escapes).mapM fun c => do
    let vars := CaptureStep.needs steps c.id
    let ways ← vars.mapM fun v => do t.way c.scope (← t.var v).scope
    return (vars, ways.flatten)
  return {
    steps
    escapingVars := SortedSet.ofList (escaping.flatMap Prod.fst)
    escapingScopes := SortedSet.ofList (escaping.flatMap Prod.snd) }

variable (a : Captures)

/-- The variables that a closure needs. -/
def needs (c : ClosureId) : List VarId :=
  CaptureStep.needs a.steps c

/-- The closures that need a variable. -/
def users (v : VarId) : List ClosureId :=
  SortedSet.ofList <| a.steps.filterMap fun s => if s.var == v then s.user else none

/-- The variables that some closure needs. -/
def captured : List VarId :=
  SortedSet.ofList <| a.steps.filterMap fun s => if s.user.isSome then some s.var else none

/-- Whether some closure needs the variable. -/
def isCaptured (v : VarId) : Bool :=
  a.captured.contains v

/-- Whether an escaping closure needs the variable. -/
def escapes (v : VarId) : Bool :=
  a.escapingVars.contains v

/-- The scopes that forward a variable. -/
def forwarding : List ScopeId :=
  SortedSet.ofList (a.steps.map CaptureStep.scope)

/-- The variables that a scope forwards. -/
def forwardedVars (s : ScopeId) : List VarId :=
  SortedSet.ofList <| a.steps.filterMap fun x => if x.scope == s then some x.var else none

/-- Whether a scope forwards a variable to an escaping closure. -/
def forwardsEscaping (s : ScopeId) : Bool :=
  a.escapingScopes.contains s

/-- The closures that need a variable, by the steps. -/
def needing : List ClosureId :=
  SortedSet.ofList (a.steps.filterMap CaptureStep.user)

/-- What each closure needs, in the order of the closures and of the variables. -/
def captures (t : ScopeTree) : List Capture :=
  t.closures.toList.flatMap fun c =>
    (a.needs c.id).map fun v =>
      ⟨v, (t.vars[v]?.getD default).scope, c.id, c.freeVars.contains v, a.escapes v⟩

end Captures

end ClosureEnv
