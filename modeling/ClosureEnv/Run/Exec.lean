import ClosureEnv.Run.Value

/-!
# Evaluation

What all evaluation has in common: it works on a state that is kept when it stops, and it stops
for a return, for an error, or for want of fuel.
-/

namespace ClosureEnv.Run

/-- Why evaluation does not go on. -/
inductive Stop (ε : Type) where
  /-- The body returned. -/
  | returned (v : Value ε)
  | failed (e : RunError)
  /-- There was no time left to find out. -/
  | outOfFuel
  deriving Repr

/-- Evaluation over some state, which is kept when evaluation stops. -/
abbrev Exec (ε σ : Type) := ExceptT (Stop ε) (StateM σ)

/-- How many calls may be going on at once. -/
def maxCallDepth : Nat :=
  1000

/-- The value at which a logical operator leaves out its second operand. -/
def decisive? : Syntax.BinaryOp → Option Bool
  | .and => some false
  | .or => some true
  | _ => none

namespace Exec

variable {ε σ α : Type}

/-- Gives up on an error. -/
def fail (e : RunError) : Exec ε σ α :=
  throw (.failed e)

/-- The result, which has to be there. -/
def ofExcept : Except RunError α → Exec ε σ α
  | .ok x => pure x
  | .error e => fail e

/-- The value of a body: that of its block, or what it returned. -/
def returning (body : Exec ε σ (Value ε)) : Exec ε σ (Value ε) :=
  tryCatch body fun
    | .returned v => pure v
    | s => throw s

/-- Runs the body as long as the test holds, `bound` times at most. -/
def iterate (test body : Exec ε σ (Value ε)) : Nat → Exec ε σ Unit
  | 0 => throw .outOfFuel
  | bound + 1 => do
    match ← test with
    | .bool true => do
      let _ ← body
      iterate test body bound
    | .bool false => return ()
    | _ => fail .loopConditionNotBool

/-- A branch that depends on a condition. -/
def branch (test yes no : Exec ε σ (Value ε)) : Exec ε σ (Value ε) := do
  match ← test with
  | .bool true => yes
  | .bool false => no
  | _ => fail .conditionNotBool

/-- Applies an operator of two operands to the value of the left one and to the right one. A
logical operator needs that only if the left one does not decide. -/
def binary (op : Syntax.BinaryOp) (v : Value ε) (rhs : Exec ε σ (Value ε)) :
    Exec ε σ (Value ε) := do
  match decisive? op, v with
  | some d, .bool b =>
    if b == d then return v
    else
      match ← rhs with
      | .bool b => return .bool b
      | _ => fail (.operandNotBool op)
  | some _, _ => fail (.operandNotBool op)
  | none, _ => ofExcept (Value.binary op v (← rhs))

end Exec

end ClosureEnv.Run
