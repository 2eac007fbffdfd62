import ClosureEnv.Syntax.Tree

/-!
# Bound bodies

Bodies in which every name is resolved to a variable, a global or a function, and every closure
is known by its number. Parentheses are gone, and spans with them.
-/

namespace ClosureEnv

/-- A scope, by its position in the tree. -/
abbrev ScopeId := Nat

/-- A variable, by its position in the tree. -/
abbrev VarId := Nat

/-- A closure, by its position in the tree. -/
abbrev ClosureId := Nat

/-- A function, by its position in the tree. -/
abbrev FnId := Nat

namespace Bound

/-- What an assignment writes to. -/
inductive Target where
  | var (v : VarId)
  | global (name : String)
  deriving DecidableEq, Repr

mutual

/-- An expression. -/
inductive Expr where
  | lit (value : Syntax.Literal)
  | var (v : VarId)
  | global (name : String)
  | fn (name : String)
  | unary (op : Syntax.UnaryOp) (operand : Expr)
  | binary (op : Syntax.BinaryOp) (lhs rhs : Expr)
  | call (callee : Expr) (args : List Expr)
  | block (body : Block)
  | cond (test : Expr) (yes : Block) (no : Option Expr)
  | loop (test : Expr) (body : Block)
  | closure (c : ClosureId)

/-- Statements and the value they end in. A block without a scope of its own declares into the
scope of its function or closure. -/
inductive Block where
  | mk (scope : Option ScopeId) (stmts : List Stmt) (tail : Option Expr)

/-- A statement. -/
inductive Stmt where
  | bind (v : VarId) (value : Expr)
  | assign (target : Target) (value : Expr)
  | expr (value : Expr)
  | ret (value : Option Expr)

end

instance : Inhabited Expr := ⟨.lit .nil⟩
instance : Inhabited Block := ⟨.mk none [] none⟩

namespace Block

/-- The scope that a block opens. -/
def scope : Block → Option ScopeId
  | mk scope _ _ => scope

/-- The statements of a block. -/
def stmts : Block → List Stmt
  | mk _ stmts _ => stmts

/-- The value that a block ends in. -/
def tail : Block → Option Expr
  | mk _ _ tail => tail

end Block

end Bound

end ClosureEnv
