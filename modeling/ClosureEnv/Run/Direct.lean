import ClosureEnv.Layout.Name
import ClosureEnv.Order.SortedMap
import ClosureEnv.Run.Exec
import ClosureEnv.Scope.Tree

/-!
# Direct evaluation

What a bound unit means, before environments come in. Each `let` that runs and each parameter gets
a cell of its own, and a closure keeps the cells in sight where its literal is evaluated, so that
what it writes to a variable is seen by all who share the cell.
-/

namespace ClosureEnv.Run.Direct

/-- A cell, by its position in the store. -/
abbrev CellId := Nat

/-- The cells in sight, by the variables that they are for. -/
abbrev Sight := SortedMap VarId CellId

/-- What a closure keeps. -/
structure Held where
  closure : ClosureId
  sight : Sight
  deriving DecidableEq, Repr, Inhabited

/-- A value of a bound unit. -/
abbrev Val := Value Held

/-- The state of a run. -/
structure Store where
  cells : Array Val
  globals : SortedMap String Val
  /-- How many calls are going on. -/
  depth : Nat
  sight : Sight
  deriving Repr, Inhabited

namespace Store

/-- Nothing has run yet. -/
def start : Store :=
  ⟨#[], [], 0, []⟩

variable (s : Store)

/-- Gives a variable a new cell. -/
def declare (v : VarId) (x : Val) : Store :=
  { s with cells := s.cells.push x, sight := s.sight.insert v s.cells.size }

/-- Gives each parameter a new cell. -/
def declareParams (params : List VarId) (args : List Val) : Store :=
  (params.zip args).foldl (fun s p => s.declare p.1 p.2) s

/-- The value of a variable in sight. -/
def read? (v : VarId) : Option Val := do
  s.cells[← s.sight.find? v]?

/-- Writes to the cell of a variable in sight. -/
def write? (v : VarId) (x : Val) : Option Store := do
  let c ← s.sight.find? v
  return { s with cells := s.cells.setIfInBounds c x }

end Store

/-- Evaluation of bound bodies. -/
abbrev Eval := Exec Held Store

/-- What the evaluation of a body relies on. -/
structure Context where
  tree : ScopeTree
  call : Val → List Val → Eval Val
  /-- How many turns a loop may take. -/
  turns : Nat

/-- A part of a body with these cells in sight at first: those it declares are out of sight once
it is left. -/
def inSight (sight : Sight) (body : Eval Val) : Eval Val := fun s =>
  let outer := s.sight
  let (result, s) := body { s with sight }
  (result, { s with sight := outer })

/-- A block sees what is in sight around it. -/
def inBlock (body : Eval Val) : Eval Val := do
  inSight (← get).sight body

/-- A body on its arguments, with these cells in sight around it. -/
def inBody (sight : Sight) (params : List VarId) (args : List Val) (body : Eval Val) : Eval Val :=
  inSight sight do
    modify fun s => s.declareParams params args
    Exec.returning body

/-- Counts a call while it goes on. -/
def counted (body : Eval Val) : Eval Val := fun s =>
  let s := { s with depth := s.depth + 1 }
  let (result, s) :=
    if s.depth > maxCallDepth then Exec.fail (.callDepth maxCallDepth) s else body s
  (result, { s with depth := s.depth - 1 })

/-- The name of a variable. -/
def varName (t : ScopeTree) (v : VarId) : String :=
  (t.vars[v]?.getD default).name

/-- The value of a variable. -/
def readVar (t : ScopeTree) (v : VarId) : Eval Val := do
  match (← get).read? v with
  | some x => return x
  | none => Exec.fail (.localUnset (varName t v))

/-- Writes a variable that has been declared. -/
def assignVar (t : ScopeTree) (v : VarId) (x : Val) : Eval Unit := do
  match (← get).write? v x with
  | some s => set s
  | none => Exec.fail (.undeclaredLocal (varName t v))

/-- The value of a global. -/
def readGlobal (name : String) : Eval Val := do
  match (← get).globals.find? name with
  | some x => return x
  | none => Exec.fail (.globalUnset name)

/-- Writes a global. -/
def writeGlobal (name : String) (x : Val) : Eval Unit :=
  modify fun s => { s with globals := s.globals.insert name x }

/-- Writes a global that has its initial value. -/
def assignGlobal (name : String) (x : Val) : Eval Unit := do
  if (← get).globals.contains name then writeGlobal name x
  else Exec.fail (.uninitializedGlobal name)

/-- The name of the lambda of a closure. -/
def lambdaName (t : ScopeTree) (c : Closure) : String :=
  Name.lambda (t.fns[c.owner]?.getD default).name c.ordinal

/-- The value of a closure literal. -/
def close (t : ScopeTree) (c : ClosureId) : Eval Val :=
  return .closure (lambdaName t (t.closures[c]?.getD default)) ⟨c, (← get).sight⟩

namespace Context

variable (c : Context)

mutual

/-- Evaluates an expression. -/
def expr : Bound.Expr → Eval Val
  | .lit value => return .ofLiteral value
  | .var v => readVar c.tree v
  | .global name => readGlobal name
  | .fn name => return .fn name
  | .unary op operand => do Exec.ofExcept (Value.unary op (← expr operand))
  | .binary op lhs rhs => do Exec.binary op (← expr lhs) (expr rhs)
  | .call callee args => do
    let f ← expr callee
    c.call f (← exprs args)
  | .block body => block body
  | .cond test yes no => Exec.branch (expr test) (block yes) (option no)
  | .loop test body => do
    Exec.iterate (expr test) (block body) c.turns
    return .unit
  | .closure k => close c.tree k

/-- Evaluates an expression that may be missing. -/
def option : Option Bound.Expr → Eval Val
  | none => return .unit
  | some e => expr e

/-- Evaluates expressions from left to right. -/
def exprs : List Bound.Expr → Eval (List Val)
  | [] => return []
  | e :: es => do
    let v ← expr e
    return v :: (← exprs es)

/-- Runs a block. -/
def block : Bound.Block → Eval Val
  | .mk _ ss tail => inBlock do
    stmts ss
    option tail

/-- Runs a statement. -/
def stmt : Bound.Stmt → Eval Unit
  | .bind v value => do
    let x ← expr value
    modify fun s => s.declare v x
  | .assign (.var v) value => do assignVar c.tree v (← expr value)
  | .assign (.global name) value => do assignGlobal name (← expr value)
  | .expr value => discard (expr value)
  | .ret value => do throw (.returned (← option value))

/-- Runs statements in order. -/
def stmts : List Bound.Stmt → Eval Unit
  | [] => return ()
  | s :: ss => do
    stmt s
    stmts ss

end

/-- Runs a function. -/
def function (f : Function) (args : List Val) : Eval Val :=
  if args.length != f.params.length then
    Exec.fail (.functionArity f.name f.params.length args.length)
  else inBody [] f.params args (c.block f.body)

/-- Runs a closure with the cells that it keeps. -/
def closure (k : Closure) (sight : Sight) (args : List Val) : Eval Val :=
  if args.length != k.params.length then
    Exec.fail (.closureArity (lambdaName c.tree k) k.params.length args.length)
  else inBody sight k.params args (c.expr k.body)

/-- The function of a name. -/
def function? (name : String) : Option Function :=
  c.tree.fns.find? fun f => f.name == name && !f.isSynthetic

/-- Runs what a value stands for. -/
def apply (callee : Val) (args : List Val) : Eval Val :=
  match callee with
  | .fn name =>
    match c.function? name with
    | some f => c.function f args
    | none => Exec.fail (.undefinedFunction name)
  | .closure name held =>
    match c.tree.closures[held.closure]? with
    | some k => c.closure k held.sight args
    | none => Exec.fail (.undefinedLambda name)
  | v => Exec.fail (.notCallable v.text)

end Context

/-- Calls a value, in at most `fuel` steps of calls and turns of loops. -/
def call (t : ScopeTree) : Nat → Val → List Val → Eval Val
  | 0, _, _ => throw .outOfFuel
  | fuel + 1, callee, args => counted ((Context.mk t (call t fuel) fuel).apply callee args)

/-- How bodies are evaluated with so much fuel. -/
def context (t : ScopeTree) (fuel : Nat) : Context :=
  ⟨t, call t fuel, fuel⟩

/-- Gives the globals their initial values, in order. -/
def initGlobals (t : ScopeTree) (fuel : Nat) : Eval Unit :=
  t.globals.toList.forM fun g => do
    let v ← inBody [] [] [] ((context t fuel).expr g.init)
    writeGlobal g.name v

/-- Runs a unit. -/
def runTree (t : ScopeTree) (fuel : Nat) : Eval Val := do
  initGlobals t fuel
  match (context t fuel).function? "main" with
  | none => Exec.fail (.noMain t.unit)
  | some main =>
    if main.params.isEmpty then (context t fuel).function main []
    else Exec.fail .mainTakesParams

end ClosureEnv.Run.Direct
