import ClosureEnv.Capture
import ClosureEnv.Plan.Basic

/-!
# Candidates

Each scope that declares a captured variable is a candidate for an environment. Candidates may be
merged: one of a block goes into the nearest one around it when nothing but blocks lies between
them, both are kept in the same way, and every closure that uses the inner one uses the outer one
too. The deepest go first, so that a merged candidate can be merged again.
-/

namespace ClosureEnv

/-- When environments are merged. -/
inductive MergePolicy where
  /-- Every scope with captured variables has an environment of its own. -/
  | never
  /-- Blocks share the environment around them where nobody can tell. -/
  | contained
  deriving DecidableEq, Repr, Inhabited

/-- How a unit is to be lowered. -/
structure LowerOptions where
  merge : MergePolicy
  /-- Whether environments kept as values reserve a field, so that later generations can grow
  them. -/
  incremental : Bool
  deriving DecidableEq, Repr, Inhabited

/-- A scope that is to have an environment. -/
structure Candidate where
  slots : List VarId
  merged : List ScopeId
  repr : Representation
  deriving DecidableEq, Repr, Inhabited

/-- The candidates by scope. -/
abbrev Candidates := SortedMap ScopeId Candidate

namespace Candidates

/-- Adds a captured variable to the candidate of its scope, which is kept on the heap once one of
its variables escapes. -/
def addVar (cs : Candidates) (scope : ScopeId) (v : VarId) (escapes : Bool) : Candidates :=
  let c := (SortedMap.find? scope cs).getD ⟨[], [], .value⟩
  SortedMap.insert scope
    { c with slots := c.slots ++ [v], repr := if escapes then .reference else c.repr } cs

/-- One candidate for each scope that declares a captured variable. -/
def ofCaptures (t : ScopeTree) (a : Captures) : Lower Candidates :=
  a.captured.foldlM (fun cs v => do
    return addVar cs (← t.var v).scope v (a.escapes v)) []

/-- The closures that use a variable of a candidate. -/
def users (a : Captures) (c : Candidate) : List ClosureId :=
  c.slots.flatMap a.users

/-- The nearest candidate at or above `cur` that only blocks lie below, within `bound` steps. -/
def targetFrom (t : ScopeTree) (cs : Candidates) :
    Nat → Option ScopeId → Lower (Option ScopeId)
  | _, none => return none
  | 0, some _ => return none
  | bound + 1, some p =>
    if SortedMap.contains p cs then return some p
    else do
      let s ← t.scope p
      if s.kind == .block then targetFrom t cs bound s.parent else return none

/-- The nearest candidate around a block with nothing but blocks in between. -/
def target? (t : ScopeTree) (cs : Candidates) (s : Scope) : Lower (Option ScopeId) :=
  if s.kind == .block then targetFrom t cs (t.scopes.size + 1) s.parent else return none

/-- Whether the inner candidate may go into the outer one. -/
def mayMerge (a : Captures) (inner outer : Candidate) : Bool :=
  inner.repr == outer.repr
    && (users a inner).all fun c => (users a outer).contains c

/-- The outer candidate with the inner one, of scope `s`, merged into it. -/
def absorb (s : ScopeId) (inner outer : Candidate) : Candidate :=
  { outer with
    slots := SortedSet.union outer.slots inner.slots
    merged := outer.merged ++ s :: inner.merged }

/-- Merges the candidate of a scope into the nearest one around it, where it may. It is taken out
first: in a scope that is its own parent nothing is left of it. -/
def mergeOne (t : ScopeTree) (a : Captures) (cs : Candidates) (s : ScopeId) :
    Lower Candidates := do
  match ← target? t cs (← t.scope s) with
  | none => return cs
  | some outer =>
    match SortedMap.find? s cs, SortedMap.find? outer cs with
    | some x, some y =>
      if mayMerge a x y then
        let rest := SortedMap.erase s cs
        return if SortedMap.contains outer rest then SortedMap.insert outer (absorb s x y) rest
          else rest
      else return cs
    | _, _ => return cs

/-- The scopes of the candidates, deepest first and later ones first among those of one depth. -/
def deepestFirst (t : ScopeTree) (cs : Candidates) : Lower (List ScopeId) := do
  let keyed ← (SortedMap.keys cs).mapM fun s => do return ((← t.scope s).depth, s)
  let before (x y : Nat × ScopeId) : Bool := y.1 < x.1 || (x.1 == y.1 && y.2 ≤ x.2)
  return (keyed.mergeSort before).map Prod.snd

/-- Merges whatever may be merged. -/
def mergeContained (t : ScopeTree) (a : Captures) (cs : Candidates) : Lower Candidates := do
  (← deepestFirst t cs).foldlM (mergeOne t a) cs

end Candidates

end ClosureEnv
