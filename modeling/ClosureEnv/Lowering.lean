import ClosureEnv.Lowered.Body
import ClosureEnv.Plan.Planning
import ClosureEnv.Scope.Validation

/-!
# Lowering a unit

From a scope tree to a lowered unit: the tree is validated, its captures are analyzed, the
environments are planned and synthesized, and the bodies are lowered. There is a whole unit at the
end or none.
-/

namespace ClosureEnv

/-- A baseline has to be of the same unit. -/
def checkBaseline (t : ScopeTree) (baseline : Option Baseline) : Lower Unit :=
  match baseline with
  | some b => if b.unit == t.unit then .ok () else inconsistent (.foreignBaseline b.unit t.unit)
  | none => .ok ()

/-- Lowers a unit, given what the generation before left. -/
def lowerUnit (t : ScopeTree) (options : LowerOptions) (baseline : Option Baseline) :
    Lower LoweredUnit := do
  t.validate
  checkBaseline t baseline
  let captures ← Captures.analyze t
  let plans ← planEnvironments t captures options
  let synthesis ← synthesize t plans options baseline
  Lowered.Scheme.unit ⟨t, plans, synthesis⟩

/-- Lowers units that do not depend on one another. -/
def lowerUnits (units : List (ScopeTree × Option Baseline)) (options : LowerOptions) :
    List (Lower LoweredUnit) :=
  units.map fun u => lowerUnit u.1 options u.2

end ClosureEnv
