import ClosureEnv.Run.Body

/-!
# Running a unit

A call runs the body of a function or of a lambda in a frame of its own. No more than
`maxCallDepth` calls may be going on at once. A run of a unit gives the globals their initial
values, in order, and then runs `main`. Instances outlast a run, and the next one uses them.
-/

namespace ClosureEnv.Run

/-- Runs a body in a frame of its own. -/
def inFrame (frame : Frame) (body : Eval Val) : Eval Val := fun m =>
  let outer := m.frame
  let callers := m.callers
  let (result, m) := body { m with frame, callers := outer :: callers }
  (result, { m with frame := outer, callers })

/-- Counts a call while it goes on. -/
def counted (body : Eval Val) : Eval Val := fun m =>
  let m := { m with depth := m.depth + 1 }
  let (result, m) :=
    if m.depth > maxCallDepth then Exec.fail (.callDepth maxCallDepth) m else body m
  (result, { m with depth := m.depth - 1 })

/-- The parameters with their values. -/
def bindParams (params : List Lowered.Param) (args : List Val) : List (VarId × Val) :=
  List.zipWith (fun p v => (p.var, v)) params args

namespace Context

variable (c : Context)

/-- Runs a function. -/
def function (f : Lowered.Function) (args : List Val) : Eval Val :=
  if args.length != f.params.length then
    Exec.fail (.functionArity f.name f.params.length args.length)
  else
    inFrame (.start none (bindParams f.params args)) (Exec.returning (c.block f.body))

/-- Runs a lambda with its environment. -/
def lambda (l : Lowered.Lambda) (env : Handle) (args : List Val) : Eval Val :=
  if args.length != l.params.length then
    Exec.fail (.closureArity l.name l.params.length args.length)
  else
    inFrame (.start (some env) (bindParams l.params args)) (Exec.returning (c.block l.body))

/-- Runs what a value stands for. -/
def apply (callee : Val) (args : List Val) : Eval Val :=
  match callee with
  | .fn name =>
    match c.unit.function? name with
    | some f => c.function f args
    | none => Exec.fail (.undefinedFunction name)
  | .closure name env =>
    match c.unit.lambda? name with
    | some l => c.lambda l env args
    | none => Exec.fail (.undefinedLambda name)
  | v => Exec.fail (.notCallable v.text)

end Context

/-- Calls a value, in at most `fuel` steps of calls and turns of loops. -/
def call (u : LoweredUnit) : Nat → Val → List Val → Eval Val
  | 0, _, _ => throw .outOfFuel
  | fuel + 1, callee, args => counted ((Context.mk u (call u fuel) fuel).apply callee args)

/-- How bodies are evaluated with so much fuel. -/
def context (u : LoweredUnit) (fuel : Nat) : Context :=
  ⟨u, call u fuel, fuel⟩

/-- Gives the globals their initial values, in order. -/
def initGlobals (u : LoweredUnit) (fuel : Nat) : Eval Unit :=
  u.globals.forM fun g => do
    let v ← inFrame (.start none []) (Exec.returning ((context u fuel).expr g.init))
    writeGlobal g.name v

/-- Runs a unit. -/
def runUnit (u : LoweredUnit) (fuel : Nat) : Eval Val := do
  initGlobals u fuel
  match u.function? "main" with
  | none => Exec.fail (.noMain u.unit)
  | some main =>
    if main.params.isEmpty then (context u fuel).function main []
    else Exec.fail .mainTakesParams

/-- The machine for the next run on a thread with the same instances. What the run before left of
its own is gone, but for values that are kept. -/
def Machine.renew (m : Machine) (kept : List Val) : Machine :=
  { Machine.start with heap := m.heap, singletons := m.singletons, depth := m.depth, kept }

/-- One of several runs: how much fuel there is for it, and which values of earlier runs are
kept. -/
structure Turn where
  fuel : Nat
  kept : List Val

/-- Runs of a unit, one after another. -/
def runs (u : LoweredUnit) (m : Machine) : List Turn → List (Except (Stop Handle) Val × Machine)
  | [] => []
  | turn :: turns =>
    let p := runUnit u turn.fuel (m.renew turn.kept)
    p :: runs u p.2 turns

end ClosureEnv.Run
