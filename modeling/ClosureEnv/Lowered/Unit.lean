import ClosureEnv.Layout.Transition

/-!
# Lowered units

Functions and lambdas whose captured variables live in environments. A scope with captured
variables is entered by a statement that brings its environment into existence, and a captured
variable is a field of an environment that is found from the body by way of parents.
-/

namespace ClosureEnv.Lowered

/-- Where the way to an environment begins. -/
inductive EnvRoot where
  /-- An environment entered in the same body. -/
  | entered (name : String)
  /-- The environment of the lambda. -/
  | envParam
  deriving DecidableEq, Repr

/-- The way to an environment: where it begins, then the types of the parents on the way. -/
structure EnvRef where
  root : EnvRoot
  hops : List String
  /-- The type of the environment. -/
  env : String
  deriving DecidableEq, Repr

/-- A field of an environment. -/
structure Place where
  env : EnvRef
  field : String
  deriving DecidableEq, Repr

/-- The environment that a closure is made with. -/
inductive EnvOperand where
  | ref (env : EnvRef)
  /-- The only instance of a type. -/
  | singleton (env : String)
  /-- A new empty instance of a type. -/
  | fresh (env : String)
  deriving DecidableEq, Repr

/-- How an environment comes into existence. -/
inductive Allocation where
  /-- On the heap, by its constructor. -/
  | alloc
  /-- In the frame. -/
  | stackDecl
  deriving DecidableEq, Repr

mutual

/-- An expression. -/
inductive Expr where
  | lit (value : Syntax.Literal)
  /-- A slot before its declaration has run. -/
  | uninit
  | var (v : VarId) (name : String)
  | global (name : String)
  | fn (name : String)
  | load (place : Place)
  | unary (op : Syntax.UnaryOp) (operand : Expr)
  | binary (op : Syntax.BinaryOp) (lhs rhs : Expr)
  | call (callee : Expr) (args : List Expr)
  | cond (test : Expr) (yes : Block) (no : Option Expr)
  | block (body : Block)
  | loop (test : Expr) (body : Block)
  | makeClosure (lambda : String) (env : EnvOperand)

/-- Statements and the value they end in. -/
inductive Block where
  | mk (stmts : List Stmt) (tail : Option Expr)

/-- A statement. -/
inductive Stmt where
  /-- Brings the environment of a scope into existence. There is an argument for each live field,
  in the order of the fields. -/
  | enter (plan : PlanId) (env name : String) (kind : Allocation) (args : List Expr)
      (parent : Option EnvRef)
  | store (place : Place) (value : Expr)
  | bind (v : VarId) (name : String) (value : Expr)
  | assign (v : VarId) (name : String) (value : Expr)
  | assignGlobal (name : String) (value : Expr)
  | expr (value : Expr)
  | ret (value : Option Expr)

end

instance : Inhabited Expr := ⟨.uninit⟩
instance : Inhabited Block := ⟨.mk [] none⟩

namespace Block

/-- The statements of a block. -/
def stmts : Block → List Stmt
  | mk stmts _ => stmts

/-- The value that a block ends in. -/
def tail : Block → Option Expr
  | mk _ tail => tail

/-- The block with a statement in front. -/
def cons (s : Stmt) : Block → Block
  | mk stmts tail => mk (s :: stmts) tail

end Block

/-- A parameter. -/
structure Param where
  var : VarId
  name : String
  deriving DecidableEq, Repr

/-- A function. -/
structure Function where
  name : String
  params : List Param
  body : Block
  deriving Inhabited

/-- The body of a closure. -/
structure Lambda where
  name : String
  closure : ClosureId
  /-- The type of its environment. -/
  env : String
  envKind : Representation
  params : List Param
  body : Block
  deriving Inhabited

/-- A global. -/
structure Global where
  name : String
  isMut : Bool
  init : Expr
  deriving Inhabited

/-- How a closure reaches one of its free variables. -/
structure CaptureAccess where
  closure : ClosureId
  lambda : String
  var : VarId
  name : String
  path : Place
  deriving DecidableEq, Repr

end Lowered

/-- A lowered unit. -/
structure LoweredUnit where
  unit : String
  generation : Nat
  envs : List EnvType
  functions : List Lowered.Function
  lambdas : List Lowered.Lambda
  globals : List Lowered.Global
  captures : List Lowered.CaptureAccess
  report : Report
  /-- The layouts that stay live though the unit does not have them. -/
  carried : List NamedLayout
  /-- The layouts that were superseded or retired, oldest first. -/
  history : List NamedLayout
  deriving Inhabited

namespace LoweredUnit

variable (u : LoweredUnit)

/-- A function by name. -/
def function? (name : String) : Option Lowered.Function :=
  u.functions.find? (·.name == name)

/-- A lambda by name. -/
def lambda? (name : String) : Option Lowered.Lambda :=
  u.lambdas.find? (·.name == name)

/-- A type of environment by name. -/
def env? (name : String) : Option EnvType :=
  u.envs.find? (·.name == name)

/-- Whether some layout was superseded. -/
def isDegraded : Bool :=
  !u.report.degraded.isEmpty

/-- What the unit leaves for the next generation. -/
def nextBaseline : Baseline where
  unit := u.unit
  generation := u.generation
  envs := .ofList (u.envs.map (fun e => (e.identity.text, e.layout)) ++ u.carried)
  history := u.history

end LoweredUnit

end ClosureEnv
