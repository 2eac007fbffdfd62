import ClosureEnv.Scope.Tree

/-!
# Valid scope trees

What lowering relies on: scopes are numbered by position and follow their parents, depths count
the scopes around, closures and their scopes belong together, and free variables come from
enclosing scopes.
-/

namespace ClosureEnv.ScopeTree

/-- Gives up unless the condition holds. -/
def require (condition : Bool) (cause : Inconsistency) : Lower Unit :=
  if condition then .ok () else inconsistent cause

/-- A scope follows its parent one level deeper; without a parent it is that of a function. -/
def checkParent (t : ScopeTree) (s : Scope) : Lower Unit :=
  match s.parent with
  | some p => do
    require (p < s.id) (.scopeBeforeParent s.id p)
    let parent ← t.scope p
    require (s.depth == parent.depth + 1) (.scopeDepth s.id s.depth parent.depth)
  | none => require (s.kind == .function) (.rootNotFunction s.id)

/-- The scope of a closure and its closure belong together. -/
def checkClosureScope (t : ScopeTree) (s : Scope) : Lower Unit := do
  if s.kind == .closure then
    let c ← orInconsistent (.closureScopeWithoutClosure s.id) s.closure
    let closure ← t.closure c
    require (closure.scope == s.id) (.closureNotOwner c s.id)

/-- The scope at a position is well placed. -/
def checkScope (t : ScopeTree) (position : Nat) (s : Scope) : Lower Unit := do
  require (s.id == position) (.scopePosition position s.id)
  t.checkParent s
  t.checkClosureScope s

/-- A free variable is declared around the closure. -/
def checkFreeVar (t : ScopeTree) (c : Closure) (v : VarId) : Lower Unit := do
  let var ← t.var v
  require (t.isStrictAncestor var.scope c.scope) (.captureNotEnclosed var.name c.id)

/-- A closure is declared in the parent of its scope, and its free variables around it. -/
def checkClosure (t : ScopeTree) (c : Closure) : Lower Unit := do
  let s ← t.scope c.scope
  require (s.parent == some c.declaredIn) (.closureDeclaredElsewhere c.id)
  c.freeVars.forM (t.checkFreeVar c)

/-- The scope of a function is one. -/
def checkFunction (t : ScopeTree) (f : Function) : Lower Unit := do
  let s ← t.scope f.scope
  require (s.kind == .function) (.functionNotRooted f.name)

/-- Whether the tree is what lowering relies on; the first inconsistency if not. -/
def validate (t : ScopeTree) : Lower Unit := do
  t.scopes.toList.zipIdx.forM fun (s, i) => t.checkScope i s
  t.vars.toList.forM fun v => discard (t.scope v.scope)
  t.closures.toList.forM t.checkClosure
  t.fns.toList.forM t.checkFunction

end ClosureEnv.ScopeTree
