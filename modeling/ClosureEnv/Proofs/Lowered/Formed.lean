import ClosureEnv.Lowering
import ClosureEnv.Proofs.Plan.Placed

/-!
# Well-formed units

What a lowered unit is beside the tree that it is lowered from. The relations go along the bound
code and the lowered code together, with the environments that the blocks around have entered; each
says where an environment is entered, how environments are referred to and which variables are in
them. `LoweredUnit.Formed` gathers this for all bodies of a unit.
-/

namespace ClosureEnv

namespace Lowered

/-! ## Entries -/

mutual

/-- The environments that an expression enters. -/
def Expr.entries : Expr → List String
  | .lit _ | .uninit | .var .. | .global _ | .fn _ | .load _ | .makeClosure .. => []
  | .unary _ operand => operand.entries
  | .binary _ lhs rhs => lhs.entries ++ rhs.entries
  | .call callee args => callee.entries ++ exprsEntries args
  | .cond test yes no => test.entries ++ (yes.entries ++ optionEntries no)
  | .block body => body.entries
  | .loop test body => test.entries ++ body.entries

/-- The environments that an optional expression enters. -/
def optionEntries : Option Expr → List String
  | none => []
  | some e => e.entries

/-- The environments that expressions enter. -/
def exprsEntries : List Expr → List String
  | [] => []
  | e :: es => e.entries ++ exprsEntries es

/-- The environments that a block enters. -/
def Block.entries : Block → List String
  | .mk ss tail => stmtsEntries ss ++ optionEntries tail

/-- The environments that a statement enters. -/
def Stmt.entries : Stmt → List String
  | .enter _ env _ _ args _ => env :: exprsEntries args
  | .store _ value | .bind _ _ value | .assign _ _ value | .assignGlobal _ value | .expr value =>
    value.entries
  | .ret value => optionEntries value

/-- The environments that statements enter. -/
def stmtsEntries : List Stmt → List String
  | [] => []
  | s :: ss => s.entries ++ stmtsEntries ss

end

/-! ## Environments in reach -/

/-- The types of the parents on the way from one type of environment to another, the last being the
goal. -/
inductive Climbs (envs : List EnvType) : String → List String → String → Prop where
  /-- The goal is reached. -/
  | here (n : String) : Climbs envs n [] n
  /-- One more parent. -/
  | up {e : EnvType} {p goal : String} {hops : List String} (he : e ∈ envs)
      (hp : e.parent = some p) (h : Climbs envs p hops goal) : Climbs envs e.name (p :: hops) goal

/-- How an environment is brought into existence that is kept so. -/
def allocationOf : Representation → Allocation
  | .reference => .alloc
  | .value => .stackDecl

/-- The type of the environment that a closure is made with. -/
def EnvOperand.env : EnvOperand → String
  | .ref env => env.env
  | .singleton env | .fresh env => env

/-- The environments that the blocks around have entered: their names and types. -/
abbrev Heads := List (String × String)

/-- What the code of a body stands in. -/
structure Setting where
  tree : ScopeTree
  plans : PlanTable
  /-- The environments of the unit. -/
  envs : List EnvType
  /-- Its lambdas. -/
  lambdas : List Lambda
  /-- The type of the environment of the lambda, if the body is that of one. -/
  param : Option String

namespace Setting

variable (w : Setting)

/-- A variable with a slot in an environment. -/
def HasSlot (v : VarId) : Prop :=
  ∃ e ∈ w.envs, ∃ f ∈ e.fields, f.var = some v

/-- The name of a variable. -/
def IsNamed (v : VarId) (name : String) : Prop :=
  ∃ x, w.tree.vars[v]? = some x ∧ x.name = name

/-- A reference to an environment leads to it. -/
inductive Leads (heads : Heads) : EnvRef → Prop where
  /-- A block around has entered it, and it is referred to by its name. -/
  | entered {name env : String} (h : (name, env) ∈ heads) : Leads heads ⟨.entered name, [], env⟩
  /-- It is found from the environment of the lambda by way of parents. -/
  | climbed {start env : String} {hops : List String} (hstart : w.param = some start)
      (h : Climbs w.envs start hops env) : Leads heads ⟨.envParam, hops, env⟩

/-- A place is the slot of a variable. -/
structure IsPlace (heads : Heads) (v : VarId) (place : Place) : Prop where
  /-- The environment is found. -/
  leads : w.Leads heads place.env
  /-- It has a field of that name, and that holds the variable. -/
  field : ∃ e ∈ w.envs, e.name = place.env.env ∧ ∃ f ∈ e.fields, f.name = place.field ∧ f.var = some v

/-- What a slot holds on entry. -/
inductive Argument (params : List VarId) : EnvField → Expr → Prop where
  /-- A parameter is there already. -/
  | param {f : EnvField} {v : VarId} {name : String} (hf : f.var = some v) (hv : v ∈ params)
      (hname : w.IsNamed v name) : Argument params f (.var v name)
  /-- Other variables are yet to be declared. -/
  | uninit {f : EnvField} {v : VarId} (hf : f.var = some v) (hv : v ∉ params) :
      Argument params f .uninit

/-- What stands at the head of the code of a scope, and what is entered after it. -/
inductive Enters (heads : Heads) (s : ScopeId) (params : List VarId) :
    Option Stmt → Heads → Prop where
  /-- The scope has no environment of its own. -/
  | none (h : ∀ e ∈ w.envs, ¬ w.plans.From e.plan s) : Enters heads s params none heads
  /-- The environment of the scope is entered, with an argument for each live field and with its
  parent. -/
  | some {e : EnvType} {args : List Expr} {parent : Option EnvRef} (he : e ∈ w.envs)
      (hs : w.plans.From e.plan s) (hargs : List.Forall₂ (w.Argument params) e.liveFields args)
      (hparent : parent.map EnvRef.env = e.parent) (hleads : ∀ ref ∈ parent, w.Leads heads ref) :
      Enters heads s params
        (some (.enter e.plan e.name (Name.envLocal e.plan) (allocationOf e.kind) args parent))
        ((Name.envLocal e.plan, e.name) :: heads)

/-- A closure is made with an environment of the type that its lambda takes. -/
structure Makes (heads : Heads) (c : ClosureId) (name : String) (env : EnvOperand) : Prop where
  /-- The lambda is that of the closure. -/
  lambda : ∃ l ∈ w.lambdas, l.closure = c ∧ l.name = name ∧ l.env = env.env
  /-- An environment that is referred to is found. -/
  leads : ∀ ref, env = .ref ref → w.Leads heads ref

/-! ## Code -/

mutual

/-- An expression as it is lowered. -/
inductive ExprOf : Heads → Bound.Expr → Expr → Prop where
  | lit {heads} (value : Syntax.Literal) : ExprOf heads (.lit value) (.lit value)
  /-- A variable with a slot is read from there. -/
  | load {heads} {v : VarId} {place : Place} (h : w.IsPlace heads v place) :
      ExprOf heads (.var v) (.load place)
  /-- A variable without one is read as it is. -/
  | var {heads} {v : VarId} {name : String} (h : ¬ w.HasSlot v) (hname : w.IsNamed v name) :
      ExprOf heads (.var v) (.var v name)
  | global {heads} (name : String) : ExprOf heads (.global name) (.global name)
  | fn {heads} (name : String) : ExprOf heads (.fn name) (.fn name)
  | unary {heads} (op : Syntax.UnaryOp) {e x} (h : ExprOf heads e x) :
      ExprOf heads (.unary op e) (.unary op x)
  | binary {heads} (op : Syntax.BinaryOp) {l r x y} (hl : ExprOf heads l x)
      (hr : ExprOf heads r y) : ExprOf heads (.binary op l r) (.binary op x y)
  | call {heads f es x xs} (hf : ExprOf heads f x) (hes : ExprsOf heads es xs) :
      ExprOf heads (.call f es) (.call x xs)
  | block {heads b x} (h : BlockOf heads b x) : ExprOf heads (.block b) (.block x)
  | cond {heads c y n x z o} (hc : ExprOf heads c x) (hy : BlockOf heads y z)
      (hn : OptionOf heads n o) : ExprOf heads (.cond c y n) (.cond x z o)
  | loop {heads c b x y} (hc : ExprOf heads c x) (hb : BlockOf heads b y) :
      ExprOf heads (.loop c b) (.loop x y)
  | closure {heads c name env} (h : w.Makes heads c name env) :
      ExprOf heads (.closure c) (.makeClosure name env)

/-- An optional expression as it is lowered. -/
inductive OptionOf : Heads → Option Bound.Expr → Option Expr → Prop where
  | none {heads} : OptionOf heads none none
  | some {heads e x} (h : ExprOf heads e x) : OptionOf heads (some e) (some x)

/-- Expressions as they are lowered. -/
inductive ExprsOf : Heads → List Bound.Expr → List Expr → Prop where
  | nil {heads} : ExprsOf heads [] []
  | cons {heads e es x xs} (h : ExprOf heads e x) (hs : ExprsOf heads es xs) :
      ExprsOf heads (e :: es) (x :: xs)

/-- A block as it is lowered: with the entry of its scope in front, if it has a scope. -/
inductive BlockOf : Heads → Bound.Block → Block → Prop where
  | plain {heads ss tail xs x} (hss : StmtsOf heads ss xs) (htail : OptionOf heads tail x) :
      BlockOf heads (.mk none ss tail) (.mk xs x)
  | opened {heads within} {s : ScopeId} {ss tail entry xs x y}
      (hentry : w.Enters heads s [] entry within) (hss : StmtsOf within ss xs)
      (htail : OptionOf within tail x) (hy : y = Scheme.withEntry entry (.mk xs x)) :
      BlockOf heads (.mk (some s) ss tail) y

/-- A statement as it is lowered. -/
inductive StmtOf : Heads → Bound.Stmt → Stmt → Prop where
  /-- A variable with a slot is declared by a write to it. -/
  | bindSlot {heads} {v : VarId} {e x place} (hv : w.IsPlace heads v place) (h : ExprOf heads e x) :
      StmtOf heads (.bind v e) (.store place x)
  /-- A variable without one is declared as it is. -/
  | bind {heads} {v : VarId} {e x name} (hv : ¬ w.HasSlot v) (hname : w.IsNamed v name)
      (h : ExprOf heads e x) : StmtOf heads (.bind v e) (.bind v name x)
  /-- A variable with a slot is assigned there. -/
  | assignSlot {heads} {v : VarId} {e x place} (hv : w.IsPlace heads v place)
      (h : ExprOf heads e x) : StmtOf heads (.assign (.var v) e) (.store place x)
  /-- A variable without one is assigned as it is. -/
  | assign {heads} {v : VarId} {e x name} (hv : ¬ w.HasSlot v) (hname : w.IsNamed v name)
      (h : ExprOf heads e x) : StmtOf heads (.assign (.var v) e) (.assign v name x)
  | assignGlobal {heads} (name : String) {e x} (h : ExprOf heads e x) :
      StmtOf heads (.assign (.global name) e) (.assignGlobal name x)
  | expr {heads e x} (h : ExprOf heads e x) : StmtOf heads (.expr e) (.expr x)
  | ret {heads e x} (h : OptionOf heads e x) : StmtOf heads (.ret e) (.ret x)

/-- Statements as they are lowered. -/
inductive StmtsOf : Heads → List Bound.Stmt → List Stmt → Prop where
  | nil {heads} : StmtsOf heads [] []
  | cons {heads s ss x xs} (h : StmtOf heads s x) (hs : StmtsOf heads ss xs) :
      StmtsOf heads (s :: ss) (x :: xs)

end

/-- The body of a closure as it is lowered: a block without a scope of its own gives its statements,
and another expression gives its value. -/
inductive BodyOf (heads : Heads) : Bound.Expr → Block → Prop where
  | block {ss tail x} (h : w.BlockOf heads (.mk none ss tail) x) :
      BodyOf heads (.block (.mk none ss tail)) x
  | expr {e x} (h : w.ExprOf heads e x) : BodyOf heads e (.mk [] (some x))

/-- A function as it is lowered. -/
structure FunctionOf (f : ClosureEnv.Function) (g : Function) : Prop where
  name : g.name = f.name
  params : g.params.map Param.var = f.params
  /-- The entry of its scope comes first. -/
  body : ∃ entry heads x, w.Enters [] f.scope f.params entry heads ∧ w.BlockOf heads f.body x ∧
    g.body = Scheme.withEntry entry x

/-- A closure as it is lowered. -/
structure LambdaOf (k : Closure) (l : Lambda) : Prop where
  closure : l.closure = k.id
  params : l.params.map Param.var = k.params
  /-- Its environment is one of the unit. -/
  env : ∃ e ∈ w.envs, e.name = l.env
  /-- The entry of its scope comes first. -/
  body : ∃ entry heads x, w.Enters [] k.scope k.params entry heads ∧ w.BodyOf heads k.body x ∧
    l.body = Scheme.withEntry entry x

end Setting

end Lowered

namespace LoweredUnit

open Lowered (Setting)

/-- What the code of a body of a unit stands in. -/
def setting (u : LoweredUnit) (t : ScopeTree) (ps : PlanTable) (param : Option String) : Setting :=
  ⟨t, ps, u.envs, u.lambdas, param⟩

/-- The environments that all code of a unit enters. -/
def entries (u : LoweredUnit) : List String :=
  u.functions.flatMap (·.body.entries) ++ u.globals.flatMap (·.init.entries)
    ++ u.lambdas.flatMap (·.body.entries)

/-- A unit that is lowered from a tree with some plans, as a whole. -/
structure Formed (t : ScopeTree) (ps : PlanTable) (u : LoweredUnit) : Prop where
  /-- Names tell environments apart. -/
  names : (u.envs.map EnvType.name).Nodup
  /-- The functions are lowered from those of the tree, but for the one that holds the globals. -/
  functions : List.Forall₂ (u.setting t ps none).FunctionOf
    (t.fns.toList.filter (!·.isSynthetic)) u.functions
  /-- The lambdas are lowered from the closures. -/
  lambdas : List.Forall₂ (fun k l => (u.setting t ps (some l.env)).LambdaOf k l) t.closures.toList
    u.lambdas
  /-- The initial values of the globals are lowered. -/
  globals : List.Forall₂ (fun g x => x.name = g.name ∧ (u.setting t ps none).ExprOf [] g.init x.init)
    t.globals.toList u.globals
  /-- The environment of a scope is entered in one place. -/
  entered : ∀ e ∈ u.envs, ∀ s, ps.From e.plan s → u.entries.count e.name = 1
  /-- The captures are those of the closures, one for each free variable. -/
  captures : u.captures.map (fun a => (a.closure, a.var)) =
    t.closures.toList.flatMap fun k => k.freeVars.map (k.id, ·)
  /-- None is there twice. -/
  nodup : (u.captures.map fun a => (a.closure, a.var)).Nodup
  /-- Each leads from the lambda of the closure to the slot of the variable. -/
  access : ∀ a ∈ u.captures, ∃ l ∈ u.lambdas, l.closure = a.closure ∧ l.name = a.lambda ∧
    (u.setting t ps (some l.env)).IsNamed a.var a.name ∧
    (u.setting t ps (some l.env)).IsPlace [] a.var a.path

end LoweredUnit

end ClosureEnv
