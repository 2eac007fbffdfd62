/-!
# Faults

Why a unit cannot be lowered: its scope tree, its plan or its baseline is inconsistent, or a name
made for it is taken. Scopes, variables, closures, functions and plans are named by their numbers.
-/

namespace ClosureEnv

/-- An inconsistency. -/
inductive Inconsistency where
  | unknownScope (s : Nat)
  | unknownVariable (v : Nat)
  | unknownClosure (c : Nat)
  | unknownFunction (f : Nat)
  | noEnclosingBody (s : Nat)
  | notEnclosing (outer inner : Nat)
  | scopePosition (position id : Nat)
  | scopeBeforeParent (s parent : Nat)
  | scopeDepth (s depth parentDepth : Nat)
  | rootNotFunction (s : Nat)
  | closureScopeWithoutClosure (s : Nat)
  | closureNotOwner (c s : Nat)
  | closureDeclaredElsewhere (c : Nat)
  | captureNotEnclosed (name : String) (c : Nat)
  | functionNotRooted (name : String)
  | captureUnresolved (name : String) (c : Nat)
  | unknownPlan (p : Nat)
  | planUnreachable (goal start : Nat)
  | cyclicHops
  | cyclicForest (p : Nat)
  | variableWithoutPlan (v : Nat)
  | planNotEnclosing (c p : Nat)
  | parentAfterChild (parent child : Nat)
  | staticWithoutOwner
  | scopePlanWithoutOrigin
  | planWithoutType (p : Nat)
  | envUnreachable (env : String) (body : Nat)
  | variableWithoutField (v : Nat)
  | freeVariableWithoutPlan (v c : Nat)
  | closureWithoutBinding (c : Nat)
  | closureWithoutName (c : Nat)
  | foreignBaseline (found expected : String)
  deriving DecidableEq, Repr

/-- The number of a scope as it is written. -/
def scopeText (s : Nat) : String := "s" ++ toString s

/-- The number of a variable as it is written. -/
def varText (v : Nat) : String := "v" ++ toString v

/-- The number of a closure as it is written. -/
def closureText (c : Nat) : String := "c" ++ toString c

/-- The number of a function as it is written. -/
def fnText (f : Nat) : String := "f" ++ toString f

/-- The number of a plan as it is written. -/
def planText (p : Nat) : String := "p" ++ toString p

/-- The wording of an inconsistency. -/
def Inconsistency.message : Inconsistency → String
  | unknownScope s => "unknown scope " ++ scopeText s
  | unknownVariable v => "unknown variable " ++ varText v
  | unknownClosure c => "unknown closure " ++ closureText c
  | unknownFunction f => "unknown function " ++ fnText f
  | noEnclosingBody s => "scope " ++ scopeText s ++ " has no enclosing body"
  | notEnclosing outer inner =>
    "scope " ++ scopeText outer ++ " does not enclose " ++ scopeText inner
  | scopePosition position id =>
    "scope at position " ++ toString position ++ " has id " ++ scopeText id
  | scopeBeforeParent s parent =>
    "scope " ++ scopeText s ++ " does not follow its parent " ++ scopeText parent
  | scopeDepth s depth parentDepth =>
    "scope " ++ scopeText s ++ " has depth " ++ toString depth ++ " under parent depth "
      ++ toString parentDepth
  | rootNotFunction s => "root scope " ++ scopeText s ++ " is not a function scope"
  | closureScopeWithoutClosure s => "closure scope " ++ scopeText s ++ " has no closure"
  | closureNotOwner c s => "closure " ++ closureText c ++ " does not own scope " ++ scopeText s
  | closureDeclaredElsewhere c =>
    "closure " ++ closureText c ++ " is not declared in the parent of its scope"
  | captureNotEnclosed name c =>
    "capture '" ++ name ++ "' of closure " ++ closureText c
      ++ " is not declared in an enclosing scope"
  | functionNotRooted name => "function '" ++ name ++ "' is not rooted at a function scope"
  | captureUnresolved name c =>
    "capture '" ++ name ++ "' of closure " ++ closureText c
      ++ " does not resolve to an enclosing scope"
  | unknownPlan p => "unknown environment plan " ++ planText p
  | planUnreachable goal start =>
    "environment " ++ planText goal ++ " is not reachable from " ++ planText start
  | cyclicHops => "cyclic environment chain"
  | cyclicForest p => "environment chain starting at " ++ planText p ++ " is cyclic"
  | variableWithoutPlan v => "captured variable " ++ varText v ++ " has no environment"
  | planNotEnclosing c p =>
    "closure " ++ closureText c ++ " needs an environment that does not enclose " ++ planText p
  | parentAfterChild parent child =>
    "parent " ++ planText parent ++ " of " ++ planText child ++ " is synthesized after its child"
  | staticWithoutOwner => "generic static environment without owner"
  | scopePlanWithoutOrigin => "scope environment without origin"
  | planWithoutType p => "no environment type for " ++ planText p
  | envUnreachable env body =>
    "environment " ++ env ++ " is not reachable from body " ++ scopeText body
  | variableWithoutField v => "environment of " ++ varText v ++ " has no field for it"
  | freeVariableWithoutPlan v c =>
    "free variable " ++ varText v ++ " of " ++ closureText c ++ " has no environment"
  | closureWithoutBinding c => "closure " ++ closureText c ++ " has no environment binding"
  | closureWithoutName c => "closure " ++ closureText c ++ " has no lambda name"
  | foreignBaseline found expected =>
    "baseline belongs to unit '" ++ found ++ "', not '" ++ expected ++ "'"

/-- Why a unit cannot be lowered. -/
inductive LowerError where
  | structural (cause : Inconsistency)
  /-- A name made for the unit is taken. -/
  | nameCollision (name unit : String)
  deriving DecidableEq, Repr

/-- The kind of error. -/
def LowerError.kind : LowerError → String
  | structural _ => "Structural"
  | nameCollision .. => "NameCollision"

/-- The wording of an error. -/
def LowerError.message : LowerError → String
  | structural cause => "internal lowering error: " ++ cause.message
  | nameCollision name unit =>
    "internal lowering error: synthesized name '" ++ name
      ++ "' collides with an existing symbol in unit '" ++ unit ++ "'"

/-- A result or the reason why there is none. -/
abbrev Lower := Except LowerError

/-- Gives up on an inconsistency. -/
def inconsistent (cause : Inconsistency) : Lower α :=
  .error (.structural cause)

/-- The value, which has to be there. -/
def orInconsistent (cause : Inconsistency) : Option α → Lower α
  | some x => .ok x
  | none => inconsistent cause

end ClosureEnv
