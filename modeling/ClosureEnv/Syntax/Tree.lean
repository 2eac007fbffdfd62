import ClosureEnv.Syntax.Span

/-!
# Syntax trees

A module is a list of functions and of module-level bindings. Bodies are blocks of statements
with an optional value at the end, and nearly everything else is an expression. Every node
carries the span of the tokens that it was read from.
-/

namespace ClosureEnv.Syntax

/-- A name where it stands. -/
structure Ident where
  text : String
  span : Span
  deriving DecidableEq, Repr, Inhabited

/-- A type as the source writes it. -/
inductive TypeExpr where
  /-- A name. -/
  | path (name : Ident)
  /-- The type of functions from `params` to `ret`. -/
  | arrow (params : List TypeExpr) (ret : TypeExpr) (span : Span)
  deriving Repr, Inhabited

/-- The span of a type. -/
def TypeExpr.span : TypeExpr → Span
  | path name => name.span
  | arrow _ _ span => span

/-- A parameter of a function or of a closure. -/
structure Param where
  name : Ident
  ty : Option TypeExpr
  span : Span
  deriving Repr

/-- The literals. -/
inductive Literal where
  | int (value : Nat)
  | str (value : String)
  | bool (value : Bool)
  | nil
  deriving DecidableEq, Repr, Inhabited

/-- The operators of one operand. -/
inductive UnaryOp where
  | not | neg
  deriving DecidableEq, Repr, Inhabited

/-- The operators of two operands. -/
inductive BinaryOp where
  | or | and | eq | ne | lt | le | gt | ge | add | sub | mul | div
  deriving DecidableEq, Repr, Inhabited

/-- The operator as the source writes it. -/
def UnaryOp.symbol : UnaryOp → String
  | not => "!"
  | neg => "-"

/-- The name of the operator. -/
def UnaryOp.name : UnaryOp → String
  | not => "Not"
  | neg => "Neg"

/-- The operator as the source writes it. -/
def BinaryOp.symbol : BinaryOp → String
  | or => "||"
  | and => "&&"
  | eq => "=="
  | ne => "!="
  | lt => "<"
  | le => "<="
  | gt => ">"
  | ge => ">="
  | add => "+"
  | sub => "-"
  | mul => "*"
  | div => "/"

/-- The name of the operator. -/
def BinaryOp.name : BinaryOp → String
  | or => "Or"
  | and => "And"
  | eq => "Eq"
  | ne => "Ne"
  | lt => "Lt"
  | le => "Le"
  | gt => "Gt"
  | ge => "Ge"
  | add => "Add"
  | sub => "Sub"
  | mul => "Mul"
  | div => "Div"

mutual

/-- An expression. -/
inductive Expr where
  | lit (value : Literal) (span : Span)
  | var (name : Ident)
  | unary (op : UnaryOp) (operand : Expr) (span : Span)
  | call (callee : Expr) (args : List Expr) (span : Span)
  | binary (op : BinaryOp) (lhs rhs : Expr) (span : Span)
  | paren (inner : Expr) (span : Span)
  | block (body : Block)
  | cond (test : Expr) (yes : Block) (no : Option Expr) (span : Span)
  | loop (test : Expr) (body : Block) (span : Span)
  | closure (params : List Param) (body : Expr) (span : Span)

/-- Statements in braces, and the value they end in. -/
inductive Block where
  | mk (stmts : List Stmt) (tail : Option Expr) (span : Span)

/-- A statement. -/
inductive Stmt where
  | bind (isMut : Bool) (name : Ident) (ty : Option TypeExpr) (value : Expr) (span : Span)
  | assign (target : Ident) (value : Expr) (span : Span)
  | expr (value : Expr) (span : Span)
  | ret (value : Option Expr) (span : Span)

end

instance : Inhabited Expr := ⟨.lit .nil ⟨0, 0⟩⟩
instance : Inhabited Block := ⟨.mk [] none ⟨0, 0⟩⟩

namespace Block

/-- The statements of a block. -/
def stmts : Block → List Stmt
  | mk stmts _ _ => stmts

/-- The value that a block ends in. -/
def tail : Block → Option Expr
  | mk _ tail _ => tail

/-- The span of a block, braces included. -/
def span : Block → Span
  | mk _ _ span => span

end Block

/-- The span of an expression. -/
def Expr.span : Expr → Span
  | lit _ span => span
  | var name => name.span
  | unary _ _ span => span
  | call _ _ span => span
  | binary _ _ _ span => span
  | paren _ span => span
  | block body => body.span
  | cond _ _ _ span => span
  | loop _ _ span => span
  | closure _ _ span => span

/-- Whether an expression ends in a brace of its own, so that as a statement it needs no
semicolon. -/
def Expr.endsInBlock : Expr → Bool
  | block _ | cond .. | loop .. => true
  | _ => false

/-- A binding outside of any function. -/
structure LetDecl where
  isMut : Bool
  name : Ident
  ty : Option TypeExpr
  value : Expr
  span : Span

/-- A function. -/
structure FnDecl where
  name : Ident
  /-- The type parameters. -/
  generics : List Ident
  params : List Param
  retTy : Option TypeExpr
  body : Block
  span : Span

/-- An item of a module. -/
inductive Item where
  | binding (decl : LetDecl)
  | function (decl : FnDecl)

/-- A whole source. -/
structure Module where
  items : List Item
  span : Span

end ClosureEnv.Syntax
