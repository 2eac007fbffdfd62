import ClosureEnv.Run.Environment

/-!
# Evaluation of bodies

Evaluation follows the body. What lies outside of it is given: how values are called, and how many
turns a loop may take before evaluation gives up.
-/

namespace ClosureEnv.Run

/-- Evaluation of lowered bodies. -/
abbrev Eval := Exec Handle Machine

/-- What the evaluation of a body relies on. -/
structure Context where
  unit : LoweredUnit
  call : Val → List Val → Eval Val
  /-- How many turns a loop may take. -/
  turns : Nat

/-- Evaluation while some values are still to be used. -/
def holding {α : Type} (vs : List Val) (body : Eval α) : Eval α := fun m =>
  let pending := m.frame.pending
  let (result, m) := body { m with frame.pending := vs ++ pending }
  (result, { m with frame.pending := pending })

/-- A block: what it enters leaves the frame when the block is left. -/
def inBlock (body : Eval Val) : Eval Val := fun m =>
  let outer := m.frame.entered
  let (result, m) := body { m with frame.entered := [] }
  let m := m.frame.entered.foldl Machine.leave m
  (result, { m with frame.entered := outer })

/-- The value of a local variable. -/
def readLocal (v : VarId) (name : String) : Eval Val := do
  match (← get).frame.locals.find? v with
  | some x => return x
  | none => Exec.fail (.localUnset name)

/-- Writes a local variable. -/
def writeLocal (v : VarId) (x : Val) : Eval Unit :=
  modify fun m => { m with frame.locals := m.frame.locals.insert v x }

/-- Writes a local variable that has been declared. -/
def assignLocal (v : VarId) (name : String) (x : Val) : Eval Unit := do
  if (← get).frame.locals.contains v then writeLocal v x
  else Exec.fail (.undeclaredLocal name)

/-- The value of a global. -/
def readGlobal (name : String) : Eval Val := do
  match (← get).globals.find? name with
  | some x => return x
  | none => Exec.fail (.globalUnset name)

/-- Writes a global. -/
def writeGlobal (name : String) (x : Val) : Eval Unit :=
  modify fun m => { m with globals := m.globals.insert name x }

/-- Writes a global that has its initial value. -/
def assignGlobal (name : String) (x : Val) : Eval Unit := do
  if (← get).globals.contains name then writeGlobal name x
  else Exec.fail (.uninitializedGlobal name)

/-- The environment at the end of a way. -/
def resolve (r : Lowered.EnvRef) : Eval Addr := do
  Exec.ofExcept ((← get).resolve r)

/-- Writes a field of an environment. -/
def store (p : Lowered.Place) (x : Val) : Eval Unit := do
  let a ← holding [x] (resolve p.env)
  modify fun m => m.store a p.field x

/-- The environment that a closure is made with. -/
def operand (u : LoweredUnit) : Lowered.EnvOperand → Eval Handle
  | .ref r => do
    let a ← resolve r
    match ← Exec.ofExcept (representation u r.env) with
    | .reference => return .shared a
    | .value => return .borrowed a
  | .singleton env => do
    match ← modifyGet fun m => m.sharedInstance u env with
    | some a => return .shared a
    | none => Exec.fail (.noInstance env)
  | .fresh env =>
    return .shared (← modifyGet fun m => m.allocate ⟨env, [], none⟩)

/-- Brings an environment into existence. -/
def enterEnv (env name : String) (slots : List (String × Val)) (parent : Option Lowered.EnvRef) :
    Eval Unit := do
  let parent ← holding (slots.map Prod.snd) (parent.mapM resolve)
  modify fun m => m.enter name ⟨env, .ofList slots, parent.map .shared⟩

/-- The fields of a type of environment that get an initial value. -/
def liveFieldNames (u : LoweredUnit) (env : String) : Eval (List String) :=
  match u.env? env with
  | some e => return e.liveFields.map EnvField.name
  | none => Exec.fail (.unknownEnv env)

namespace Context

variable (c : Context)

mutual

/-- Evaluates an expression. -/
def expr : Lowered.Expr → Eval Val
  | .lit value => return .ofLiteral value
  | .uninit => Exec.fail .uninitializedSlot
  | .var v name => readLocal v name
  | .global name => readGlobal name
  | .fn name => return .fn name
  | .load place => do Exec.ofExcept ((← get).load place)
  | .unary op operand => do Exec.ofExcept (Value.unary op (← expr operand))
  | .binary op lhs rhs => do
    let v ← expr lhs
    Exec.binary op v (holding [v] (expr rhs))
  | .call callee args => do
    let f ← expr callee
    c.call f (← holding [f] (exprs args))
  | .cond test yes no => Exec.branch (expr test) (block yes) (option no)
  | .block body => block body
  | .loop test body => do
    Exec.iterate (expr test) (block body) c.turns
    return .unit
  | .makeClosure lambda env => return .closure lambda (← operand c.unit env)

/-- Evaluates an expression that may be missing. -/
def option : Option Lowered.Expr → Eval Val
  | none => return .unit
  | some e => expr e

/-- Evaluates expressions from left to right. -/
def exprs : List Lowered.Expr → Eval (List Val)
  | [] => return []
  | e :: es => do
    let v ← expr e
    return v :: (← holding [v] (exprs es))

/-- The initial values of the fields of an environment. -/
def slots (env : String) : List String → List Lowered.Expr → Eval (List (String × Val))
  | [], _ => return []
  | field :: _, [] => Exec.fail (.missingSlot env field)
  | _ :: fields, .uninit :: es => slots env fields es
  | field :: fields, e :: es => do
    let v ← Exec.returning (expr e)
    return (field, v) :: (← holding [v] (slots env fields es))

/-- Runs a block. -/
def block : Lowered.Block → Eval Val
  | .mk ss tail => inBlock do
    stmts ss
    option tail

/-- Runs a statement. -/
def stmt : Lowered.Stmt → Eval Unit
  | .enter _ env name _ args parent => do
    modify fun m => { m with frame.entered := name :: m.frame.entered }
    enterEnv env name (← slots env (← liveFieldNames c.unit env) args) parent
  | .store place value => do store place (← expr value)
  | .bind v _ value => do writeLocal v (← expr value)
  | .assign v name value => do assignLocal v name (← expr value)
  | .assignGlobal name value => do assignGlobal name (← expr value)
  | .expr value => discard (expr value)
  | .ret value => do throw (.returned (← option value))

/-- Runs statements in order. -/
def stmts : List Lowered.Stmt → Eval Unit
  | [] => return ()
  | s :: ss => do
    stmt s
    stmts ss

end

end Context

end ClosureEnv.Run
