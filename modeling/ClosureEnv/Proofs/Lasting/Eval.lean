import ClosureEnv.Plan.Basic
import ClosureEnv.Run.Direct
import ClosureEnv.Run.Machine

/-!
# Lasting environments

A third evaluation, between the direct one and that of lowered units. It follows the bound bodies,
as the direct one does, and keeps captured variables in environments, as lowered units do; but its
environments last for ever, and a closure keeps all environments in sight where its literal is
evaluated. What the lowered unit adds to it is how environments are found and how long they are
there; what it adds to the direct evaluation is that variables share environments.
-/

namespace ClosureEnv.Run.Lasting

/-- The environments in sight, by their plans. -/
abbrev Sight := SortedMap PlanId Addr

/-- What a closure keeps. -/
structure Held where
  closure : ClosureId
  sight : Sight
  deriving DecidableEq, Repr, Inhabited

/-- A value of a unit whose environments last. -/
abbrev Val := Value Held

/-- An environment. -/
structure Instance where
  plan : PlanId
  /-- The environments in sight of its scope, itself included. -/
  sight : Sight
  slots : SortedMap VarId Val
  deriving Repr, Inhabited

/-- The state of a run. -/
structure Store where
  heap : Array Instance
  globals : SortedMap String Val
  /-- The only instances of plans that were built. -/
  singletons : SortedMap PlanId Addr
  /-- How many calls are going on. -/
  depth : Nat
  sight : Sight
  /-- The variables of the body that are in no environment. -/
  locals : SortedMap VarId Val
  deriving Repr, Inhabited

namespace Store

/-- Nothing has run yet. -/
def start : Store :=
  ⟨#[], [], [], 0, [], []⟩

variable (s : Store)

/-- The environment that holds a variable of a plan. -/
def holder? (p : PlanId) : Option Instance := do
  s.heap[← s.sight.find? p]?

/-- The value of a variable. -/
def read? (ps : PlanTable) (v : VarId) : Option Val :=
  match ps.varPlan.find? v with
  | none => s.locals.find? v
  | some p => (s.holder? p).bind (·.slots.find? v)

/-- Writes a variable of an environment. -/
def store (a : Addr) (v : VarId) (x : Val) : Store :=
  { s with heap := s.heap.modify a fun i => { i with slots := i.slots.insert v x } }

/-- Writes a variable. -/
def write? (ps : PlanTable) (v : VarId) (x : Val) : Option Store :=
  match ps.varPlan.find? v with
  | none => some { s with locals := s.locals.insert v x }
  | some p => (s.sight.find? p).map fun a => s.store a v x

/-- The plan of the environment that the entry of a scope brings into existence. -/
def planAt? (ps : PlanTable) (scope : ScopeId) : Option Plan :=
  ((ps.scopePlan.find? scope).bind fun p => ps.plans[p]?).filter (·.origin == some scope)

/-- The parameters that an environment holds from the start. -/
def given (p : Plan) (params : List VarId) : SortedMap VarId Val :=
  (p.slots.filter params.contains).filterMap fun v => (s.locals.find? v).map (v, ·)

/-- Enters a scope: its environment comes into existence, if it has one. -/
def enter (ps : PlanTable) (scope : ScopeId) (params : List VarId) : Store :=
  match planAt? ps scope with
  | none => s
  | some p =>
    let sight := s.sight.insert p.id s.heap.size
    { s with heap := s.heap.push ⟨p.id, sight, s.given p params⟩, sight }

/-- The environment that an empty closure is made with. -/
def bindEmpty : Option ClosureBinding → Store
  | some (.singleton p) =>
    if s.singletons.contains p then s
    else { s with
      heap := s.heap.push ⟨p, [], []⟩
      singletons := s.singletons.insert p s.heap.size }
  | some (.fresh p) => { s with heap := s.heap.push ⟨p, [], []⟩ }
  | some (.direct _) | none => s

end Store

/-- Evaluation of bound bodies. -/
abbrev Eval := Exec Held Store

/-- What the evaluation of a body relies on. -/
structure Context where
  tree : ScopeTree
  plans : PlanTable
  call : Val → List Val → Eval Val
  /-- How many turns a loop may take. -/
  turns : Nat

/-- A block: what is in sight around it is in sight again once it is left. -/
def inBlock (ps : PlanTable) (scope : Option ScopeId) (params : List VarId) (body : Eval Val) :
    Eval Val := fun s =>
  let (result, s₁) := body <| match scope with
    | some scope => s.enter ps scope params
    | none => s
  (result, { s₁ with sight := s.sight })

/-- A body with environments and variables of its own. -/
def inFrame (sight : Sight) (locals : SortedMap VarId Val) (body : Eval Val) : Eval Val := fun s =>
  let (result, s₁) := Exec.returning body { s with sight, locals }
  (result, { s₁ with sight := s.sight, locals := s.locals })

/-- Counts a call while it goes on. -/
def counted (body : Eval Val) : Eval Val := fun s =>
  let s := { s with depth := s.depth + 1 }
  let (result, s) :=
    if s.depth > maxCallDepth then Exec.fail (.callDepth maxCallDepth) s else body s
  (result, { s with depth := s.depth - 1 })

/-- The value of a variable. -/
def readVar (t : ScopeTree) (ps : PlanTable) (v : VarId) : Eval Val := do
  match (← get).read? ps v with
  | some x => return x
  | none => Exec.fail (.localUnset (Direct.varName t v))

/-- Writes a variable. -/
def writeVar (t : ScopeTree) (ps : PlanTable) (v : VarId) (x : Val) : Eval Unit := do
  match (← get).write? ps v x with
  | some s => set s
  | none => Exec.fail (.undeclaredLocal (Direct.varName t v))

/-- The value of a global. -/
def readGlobal (name : String) : Eval Val := do
  match (← get).globals.find? name with
  | some x => return x
  | none => Exec.fail (.globalUnset name)

/-- Writes a global. -/
def writeGlobal (name : String) (x : Val) : Eval Unit :=
  modify fun s => { s with globals := s.globals.insert name x }

/-- Writes a global that has its initial value. -/
def assignGlobal (name : String) (x : Val) : Eval Unit := do
  if (← get).globals.contains name then writeGlobal name x
  else Exec.fail (.uninitializedGlobal name)

/-- The value of a closure literal. -/
def close (t : ScopeTree) (ps : PlanTable) (c : ClosureId) : Eval Val := do
  modify fun s => s.bindEmpty (ps.bindings.find? c)
  return .closure (Direct.lambdaName t (t.closures[c]?.getD default)) ⟨c, (← get).sight⟩

namespace Context

variable (c : Context)

mutual

/-- Evaluates an expression. -/
def expr : Bound.Expr → Eval Val
  | .lit value => return .ofLiteral value
  | .var v => readVar c.tree c.plans v
  | .global name => readGlobal name
  | .fn name => return .fn name
  | .unary op operand => do Exec.ofExcept (Value.unary op (← expr operand))
  | .binary op lhs rhs => do Exec.binary op (← expr lhs) (expr rhs)
  | .call callee args => do
    let f ← expr callee
    c.call f (← exprs args)
  | .block body => block body
  | .cond test yes no => Exec.branch (expr test) (block yes) (option no)
  | .loop test body => do
    Exec.iterate (expr test) (block body) c.turns
    return .unit
  | .closure k => close c.tree c.plans k

/-- Evaluates an expression that may be missing. -/
def option : Option Bound.Expr → Eval Val
  | none => return .unit
  | some e => expr e

/-- Evaluates expressions from left to right. -/
def exprs : List Bound.Expr → Eval (List Val)
  | [] => return []
  | e :: es => do
    let v ← expr e
    return v :: (← exprs es)

/-- Runs a block. -/
def block : Bound.Block → Eval Val
  | .mk scope ss tail => inBlock c.plans scope [] do
    stmts ss
    option tail

/-- Runs a statement. -/
def stmt : Bound.Stmt → Eval Unit
  | .bind v value => do writeVar c.tree c.plans v (← expr value)
  | .assign (.var v) value => do writeVar c.tree c.plans v (← expr value)
  | .assign (.global name) value => do assignGlobal name (← expr value)
  | .expr value => discard (expr value)
  | .ret value => do throw (.returned (← option value))

/-- Runs statements in order. -/
def stmts : List Bound.Stmt → Eval Unit
  | [] => return ()
  | s :: ss => do
    stmt s
    stmts ss

end

/-- Runs a function. -/
def function (f : Function) (args : List Val) : Eval Val :=
  if args.length != f.params.length then
    Exec.fail (.functionArity f.name f.params.length args.length)
  else
    inFrame [] (.ofList (f.params.zip args))
      (inBlock c.plans (some f.scope) f.params (c.block f.body))

/-- Runs a closure with the environments that it keeps. -/
def closure (k : Closure) (sight : Sight) (args : List Val) : Eval Val :=
  if args.length != k.params.length then
    Exec.fail (.closureArity (Direct.lambdaName c.tree k) k.params.length args.length)
  else
    inFrame sight (.ofList (k.params.zip args))
      (inBlock c.plans (some k.scope) k.params (c.expr k.body))

/-- The function of a name. -/
def function? (name : String) : Option Function :=
  c.tree.fns.find? fun f => f.name == name && !f.isSynthetic

/-- Runs what a value stands for. -/
def apply (callee : Val) (args : List Val) : Eval Val :=
  match callee with
  | .fn name =>
    match c.function? name with
    | some f => c.function f args
    | none => Exec.fail (.undefinedFunction name)
  | .closure name held =>
    match c.tree.closures[held.closure]? with
    | some k => c.closure k held.sight args
    | none => Exec.fail (.undefinedLambda name)
  | v => Exec.fail (.notCallable v.text)

end Context

/-- Calls a value, in at most `fuel` steps of calls and turns of loops. -/
def call (t : ScopeTree) (ps : PlanTable) : Nat → Val → List Val → Eval Val
  | 0, _, _ => throw .outOfFuel
  | fuel + 1, callee, args => counted ((Context.mk t ps (call t ps fuel) fuel).apply callee args)

/-- How bodies are evaluated with so much fuel. -/
def context (t : ScopeTree) (ps : PlanTable) (fuel : Nat) : Context :=
  ⟨t, ps, call t ps fuel, fuel⟩

/-- Gives the globals their initial values, in order. -/
def initGlobals (t : ScopeTree) (ps : PlanTable) (fuel : Nat) : Eval Unit :=
  t.globals.toList.forM fun g => do
    let v ← inFrame [] [] ((context t ps fuel).expr g.init)
    writeGlobal g.name v

/-- Runs a unit. -/
def runTree (t : ScopeTree) (ps : PlanTable) (fuel : Nat) : Eval Val := do
  initGlobals t ps fuel
  match (context t ps fuel).function? "main" with
  | none => Exec.fail (.noMain t.unit)
  | some main =>
    if main.params.isEmpty then (context t ps fuel).function main []
    else Exec.fail .mainTakesParams

end ClosureEnv.Run.Lasting
