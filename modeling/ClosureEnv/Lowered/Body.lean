import ClosureEnv.Layout.Synthesis
import ClosureEnv.Lowered.Unit

/-!
# Lowering bodies

Captured variables are read and written through the fields of their environments, the entry of a
scope brings its environment into existence, and a closure is made with the environment that its
plan binds it to.
-/

namespace ClosureEnv.Lowered

/-- What is known of a unit when its bodies are lowered. -/
structure Scheme where
  tree : ScopeTree
  plans : PlanTable
  synthesis : Synthesis

/-- The body that is lowered. -/
structure Inside where
  scope : ScopeId
  /-- The plan of the environment that the lambda is made with, unless that is empty. -/
  envParam : Option PlanId

namespace Scheme

variable (r : Scheme)

/-- Whether the environment of a plan is entered in the body. -/
def isEntered (cx : Inside) (p : Plan) : Lower Bool :=
  match p.origin with
  | some s => return (← r.tree.bodyOf s) == cx.scope
  | none => return false

/-- The way to the environment of a plan. -/
def envRef (cx : Inside) (p : PlanId) : Lower EnvRef := do
  let plan ← r.plans.plan p
  let env := (← r.synthesis.env p).name
  if ← r.isEntered cx plan then return ⟨.entered (Name.envLocal p), [], env⟩
  else
    let direct ← orInconsistent (.envUnreachable env cx.scope) cx.envParam
    let hops ← (← r.plans.hops direct p).mapM fun h => do return (← r.synthesis.env h).name
    return ⟨.envParam, hops, env⟩

/-- The field of a variable, if it is captured. -/
def place? (cx : Inside) (v : VarId) : Lower (Option Place) := do
  match r.plans.varPlan.find? v with
  | none => return none
  | some p =>
    let field ← orInconsistent (.variableWithoutField v) ((← r.synthesis.env p).fieldFor? v)
    return some ⟨← r.envRef cx p, field.name⟩

/-- The name of a variable. -/
def varName (v : VarId) : Lower String :=
  return (← r.tree.var v).name

/-- The value of a variable that is not captured. -/
def localVar (v : VarId) : Lower Expr :=
  return .var v (← r.varName v)

/-- The value of a slot on entry: a parameter is there already. -/
def entryArg (params : List VarId) (v : VarId) : Lower Expr :=
  if params.contains v then r.localVar v else return .uninit

/-- The entry of a scope, if it has an environment of its own. -/
def entry? (cx : Inside) (s : ScopeId) (params : List VarId) : Lower (Option Stmt) := do
  match r.plans.scopePlan.find? s with
  | none => return none
  | some p =>
    let plan ← r.plans.plan p
    if plan.origin == some s then
      let env ← r.synthesis.env p
      let args ← (env.fields.filterMap EnvField.var).mapM (r.entryArg params)
      let parent ← plan.parent.mapM (r.envRef cx)
      let kind := match plan.repr with
        | .reference => Allocation.alloc
        | .value => .stackDecl
      return some (.enter p env.name (Name.envLocal p) kind args parent)
    else return none

/-- A body with the entry of its scope in front, if there is one. -/
def withEntry (entry : Option Stmt) (b : Block) : Block :=
  match entry with
  | some s => b.cons s
  | none => b

/-- How a closure gets its environment. -/
def binding (c : ClosureId) : Lower ClosureBinding :=
  orInconsistent (.closureWithoutBinding c) (r.plans.bindings.find? c)

/-- The name of the lambda of a closure. -/
def lambdaName (c : ClosureId) : Lower String :=
  orInconsistent (.closureWithoutName c) (r.synthesis.lambdaNames.find? c)

/-- The environment that a closure is made with. -/
def operand (cx : Inside) (b : ClosureBinding) : Lower EnvOperand := do
  match b with
  | .direct p => return .ref (← r.envRef cx p)
  | .singleton p => return .singleton (← r.synthesis.env p).name
  | .fresh p => return .fresh (← r.synthesis.env p).name

/-- A write to a local variable. -/
def write (cx : Inside) (v : VarId) (plain : VarId → String → Expr → Stmt) (value : Expr) :
    Lower Stmt := do
  match ← r.place? cx v with
  | some place => return .store place value
  | none => return plain v (← r.varName v) value

/-- A read of a local variable. -/
def read (cx : Inside) (v : VarId) : Lower Expr := do
  match ← r.place? cx v with
  | some place => return .load place
  | none => r.localVar v

mutual

/-- Lowers an expression. -/
def expr (cx : Inside) : Bound.Expr → Lower Expr
  | .lit value => return .lit value
  | .var v => r.read cx v
  | .global name => return .global name
  | .fn name => return .fn name
  | .unary op operand => return .unary op (← expr cx operand)
  | .binary op lhs rhs => do
    let l ← expr cx lhs
    return .binary op l (← expr cx rhs)
  | .call callee args => do
    let xs ← exprs cx args
    return .call (← expr cx callee) xs
  | .block body => return .block (← block cx body)
  | .cond test yes no => do
    let c ← expr cx test
    let t ← block cx yes
    return .cond c t (← option cx no)
  | .loop test body => do
    let c ← expr cx test
    return .loop c (← block cx body)
  | .closure c => do
    let name ← r.lambdaName c
    return .makeClosure name (← r.operand cx (← r.binding c))

/-- Lowers an optional expression. -/
def option (cx : Inside) : Option Bound.Expr → Lower (Option Expr)
  | none => return none
  | some e => return some (← expr cx e)

/-- Lowers some expressions. -/
def exprs (cx : Inside) : List Bound.Expr → Lower (List Expr)
  | [] => return []
  | e :: es => do
    let x ← expr cx e
    return x :: (← exprs cx es)

/-- Lowers a block, with the entry of its scope in front. -/
def block (cx : Inside) : Bound.Block → Lower Block
  | .mk scope stmts tail => do
    let entry ← match scope with
      | some s => r.entry? cx s []
      | none => pure none
    let ss ← stmtList cx stmts
    return withEntry entry (.mk ss (← option cx tail))

/-- Lowers a statement. -/
def stmt (cx : Inside) : Bound.Stmt → Lower Stmt
  | .bind v value => do r.write cx v .bind (← expr cx value)
  | .assign (.var v) value => do r.write cx v .assign (← expr cx value)
  | .assign (.global name) value => return .assignGlobal name (← expr cx value)
  | .expr value => return .expr (← expr cx value)
  | .ret value => return .ret (← option cx value)

/-- Lowers some statements. -/
def stmtList (cx : Inside) : List Bound.Stmt → Lower (List Stmt)
  | [] => return []
  | s :: ss => do
    let x ← stmt cx s
    return x :: (← stmtList cx ss)

end

/-- The parameters of a body. -/
def params (vars : List VarId) : Lower (List Param) :=
  vars.mapM fun v => return ⟨v, ← r.varName v⟩

/-- Lowers a function. -/
def function (f : ClosureEnv.Function) : Lower Function := do
  let cx : Inside := ⟨f.scope, none⟩
  let body ← r.block cx f.body
  let entry ← r.entry? cx f.scope f.params
  return ⟨f.name, ← r.params f.params, withEntry entry body⟩

/-- Lowers the body of a closure. The statements of a block without a scope of its own are those of
the body. -/
def closureBody (cx : Inside) : Bound.Expr → Lower Block
  | .block (.mk none stmts tail) => r.block cx (.mk none stmts tail)
  | e => return .mk [] (some (← r.expr cx e))

/-- How a closure reaches one of its free variables. -/
def access (cx : Inside) (c : Closure) (lambda : String) (v : VarId) : Lower CaptureAccess := do
  let path ← orInconsistent (.freeVariableWithoutPlan v c.id) (← r.place? cx v)
  return ⟨c.id, lambda, v, ← r.varName v, path⟩

/-- Lowers a closure to a lambda and the ways to its free variables. -/
def lambda (c : Closure) : Lower (Lambda × List CaptureAccess) := do
  let binding ← r.binding c.id
  let envParam := match binding with
    | .direct p => some p
    | .singleton _ | .fresh _ => none
  let cx : Inside := ⟨c.scope, envParam⟩
  let body ← r.closureBody cx c.body
  let entry ← r.entry? cx c.scope c.params
  let name ← r.lambdaName c.id
  let accesses ← c.freeVars.mapM (r.access cx c name)
  let env ← r.synthesis.env binding.plan
  return (⟨name, c.id, env.name, env.kind, ← r.params c.params, withEntry entry body⟩, accesses)

/-- Lowers the initial values of the globals, which share a body. -/
def globals : Lower (List Global) :=
  match r.tree.fns.find? ClosureEnv.Function.isSynthetic with
  | none => return []
  | some f =>
    r.tree.globals.toList.mapM fun g =>
      return ⟨g.name, g.isMut, ← r.expr ⟨f.scope, none⟩ g.init⟩

/-- Lowers all bodies of a unit. -/
def unit : Lower LoweredUnit := do
  let functions ← (r.tree.fns.toList.filter (!·.isSynthetic)).mapM r.function
  let globals ← r.globals
  let lambdas ← r.tree.closures.toList.mapM r.lambda
  return {
    unit := r.tree.unit
    generation := r.synthesis.generation
    envs := r.synthesis.envs.toList
    functions
    lambdas := lambdas.map Prod.fst
    globals
    captures := lambdas.flatMap Prod.snd
    report := r.synthesis.report
    carried := r.synthesis.carried
    history := r.synthesis.history }

end Scheme

end ClosureEnv.Lowered
