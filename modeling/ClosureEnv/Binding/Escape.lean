import ClosureEnv.Binding.State
import ClosureEnv.Graph.Rounds

/-!
# Escape hints

A closure escapes when its value may outlive the scope that declares it: when it reaches a sink
that leads out of that scope, or when a variable that an escaping closure needs may hold it.
Values flow from variable to variable, and flow is not sensitive to order.
-/

namespace ClosureEnv.Binding

/-- The closures among some sources. -/
def Source.closures (sources : List Source) : List ClosureId :=
  sources.filterMap fun
    | .closure c => some c
    | .var _ => none

/-- The variables among some sources. -/
def Source.vars (sources : List Source) : List VarId :=
  sources.filterMap fun
    | .closure _ => none
    | .var v => some v

namespace State

variable (b : State)

/-- The sources of what is stored into a variable. -/
def sourcesOf (v : VarId) : List Source :=
  b.varSources[v]?.getD []

/-- The closures that some sources may stand for: those among them, and those that the variables
among them hold, also by way of other variables. -/
def reach (sources : List Source) : List ClosureId :=
  let vars := Graph.reachable (fun v => Source.vars (b.sourcesOf v)) b.vars.size
    (Source.vars sources)
  Source.closures sources ++ vars.flatMap fun v => Source.closures (b.sourcesOf v)

/-- The closures that a variable may hold. -/
def holds (v : VarId) : List ClosureId :=
  b.reach (b.sourcesOf v)

/-- The scope that declares a closure. -/
def declaredIn (c : ClosureId) : ScopeId :=
  (b.closures[c]?.getD default).declaredIn

/-- The closures that a sink lets escape. -/
def drained : Sink → List ClosureId
  | .escape sources => b.reach sources
  | .within scope sources =>
    (b.reach sources).filter fun c =>
      b.declaredIn c == scope || isStrictAncestorIn b.scopes scope (b.declaredIn c)
  | .below scope sources =>
    (b.reach sources).filter fun c => isStrictAncestorIn b.scopes scope (b.declaredIn c)

/-- The variables that a closure needs: those from outside of it that it or a closure nested in it
mentions. -/
def needs (c : ClosureId) : List VarId :=
  match b.closures[c]? with
  | none => []
  | some outer =>
    let isInside (s : ScopeId) : Bool :=
      s == outer.scope || isStrictAncestorIn b.scopes outer.scope s
    let nested := b.closures.toList.filter fun inner => isInside inner.scope
    (nested.flatMap Closure.freeVars).filter fun v =>
      !isInside (b.vars[v]?.getD default).scope

/-- The closures that may outlive their scopes. -/
def escaping : List ClosureId :=
  Graph.reachable (fun c => (b.needs c).flatMap b.holds) b.closures.size
    (b.sinks.flatMap b.drained)

/-- The tree of what was bound, with the escape hints. -/
def finish (unit : String) : ScopeTree :=
  let escaping := b.escaping
  { unit
    scopes := b.scopes
    vars := b.vars
    closures := b.closures.map fun c => { c with escapes := escaping.contains c.id }
    fns := b.fns
    globals := b.globals }

end State

end ClosureEnv.Binding
