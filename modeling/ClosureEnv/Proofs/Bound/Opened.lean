import ClosureEnv.Scope.Tree

/-!
# Opened scopes

The scopes that bodies open, in the order of the source. In the tree of a module every scope is
opened exactly once (`ScopeTree.OpensOnce`): by a function, by a closure, or by a block in one of
their bodies.
-/

namespace ClosureEnv

namespace Bound

mutual

/-- The scopes that the blocks in an expression open; closures in it open theirs elsewhere. -/
def Expr.opens : Expr → List ScopeId
  | .lit _ | .var _ | .global _ | .fn _ | .closure _ => []
  | .unary _ operand => operand.opens
  | .binary _ lhs rhs => lhs.opens ++ rhs.opens
  | .call callee args => callee.opens ++ exprsOpens args
  | .block body => body.opens
  | .cond test yes no => test.opens ++ (yes.opens ++ optionOpens no)
  | .loop test body => test.opens ++ body.opens

/-- The scopes that an optional expression opens. -/
def optionOpens : Option Expr → List ScopeId
  | none => []
  | some e => e.opens

/-- The scopes that expressions open. -/
def exprsOpens : List Expr → List ScopeId
  | [] => []
  | e :: es => e.opens ++ exprsOpens es

/-- The scopes that a block opens, its own first. -/
def Block.opens : Block → List ScopeId
  | .mk scope ss tail => scope.toList ++ (stmtsOpens ss ++ optionOpens tail)

/-- The scopes that a statement opens. -/
def Stmt.opens : Stmt → List ScopeId
  | .bind _ value | .assign _ value | .expr value => value.opens
  | .ret value => optionOpens value

/-- The scopes that statements open. -/
def stmtsOpens : List Stmt → List ScopeId
  | [] => []
  | s :: ss => s.opens ++ stmtsOpens ss

end

end Bound

/-- The scopes that a function opens. -/
def Function.opens (f : Function) : List ScopeId :=
  f.scope :: f.body.opens

/-- The scopes that a closure opens. -/
def Closure.opens (k : Closure) : List ScopeId :=
  k.scope :: k.body.opens

namespace ScopeTree

/-- Every scope is opened exactly once. -/
def OpensOnce (t : ScopeTree) : Prop :=
  (t.fns.toList.flatMap Function.opens ++ t.globals.toList.flatMap (·.init.opens)
    ++ t.closures.toList.flatMap Closure.opens).Perm (List.range t.scopes.size)

end ScopeTree

end ClosureEnv
