import ClosureEnv.Syntax.Tree
import ClosureEnv.Text.Outline
import ClosureEnv.Text.Quoted

/-!
# Outlines of syntax trees

The outline of a tree names every node and every part of it, spans included.
-/

namespace ClosureEnv.Syntax

open Text (Outline)

/-- The outline of a span. -/
def Span.outline (s : Span) : Outline :=
  .record "Span" [("start", Outline.nat s.start), ("end", Outline.nat s.stop)]

/-- The outline of a name. -/
def Ident.outline (x : Ident) : Outline :=
  .record "Ident" [("text", .atom (Text.quoted x.text)), ("span", x.span.outline)]

mutual

/-- The outline of a type. -/
def TypeExpr.outline : TypeExpr → Outline
  | .path name => .tuple "Path" [name.outline]
  | .arrow params ret span =>
    .record "Arrow"
      [("params", .list (outlines params)), ("ret", ret.outline), ("span", span.outline)]

/-- The outlines of some types. -/
def TypeExpr.outlines : List TypeExpr → List Outline
  | [] => []
  | t :: ts => t.outline :: outlines ts

end

/-- The outline of a type that may be left out. -/
def statedOutline (t : Option TypeExpr) : Outline :=
  .option (t.map TypeExpr.outline)

/-- The outline of a parameter. -/
def Param.outline (p : Param) : Outline :=
  .record "Param"
    [("name", p.name.outline), ("ty", statedOutline p.ty), ("span", p.span.outline)]

/-- The outline of a literal. -/
def Literal.outline : Literal → Outline
  | int n => .tuple "Int" [Outline.nat n]
  | str s => .tuple "Str" [.atom (Text.quoted s)]
  | bool b => .tuple "Bool" [Outline.bool b]
  | nil => .atom "Nil"

mutual

/-- The outline of an expression. -/
def Expr.outline : Expr → Outline
  | .lit value span => .tuple "Lit" [value.outline, span.outline]
  | .var name => .tuple "Var" [name.outline]
  | .unary op operand span =>
    .record "Unary"
      [("op", .atom op.name), ("expr", operand.outline), ("span", span.outline)]
  | .call callee args span =>
    .record "Call"
      [("callee", callee.outline), ("args", .list (exprOutlines args)), ("span", span.outline)]
  | .binary op lhs rhs span =>
    .record "Binary"
      [("lhs", lhs.outline), ("op", .atom op.name), ("rhs", rhs.outline), ("span", span.outline)]
  | .paren inner span => .record "Paren" [("inner", inner.outline), ("span", span.outline)]
  | .block body => .tuple "Block" [body.outline]
  | .cond test yes no span =>
    .record "If"
      [("cond", test.outline), ("then_", yes.outline), ("else_", optionOutline no),
        ("span", span.outline)]
  | .loop test body span =>
    .record "While" [("cond", test.outline), ("body", body.outline), ("span", span.outline)]
  | .closure params body span =>
    .tuple "Closure"
      [.record "ClosureExpr"
        [("params", .list (params.map Param.outline)), ("body", body.outline),
          ("span", span.outline)]]

/-- The outline of an expression that may be left out. -/
def optionOutline : Option Expr → Outline
  | none => .atom "None"
  | some x => .tuple "Some" [x.outline]

/-- The outlines of some expressions. -/
def exprOutlines : List Expr → List Outline
  | [] => []
  | x :: xs => x.outline :: exprOutlines xs

/-- The outline of a block. -/
def Block.outline : Block → Outline
  | .mk stmts tail span =>
    .record "Block"
      [("stmts", .list (stmtOutlines stmts)), ("tail", optionOutline tail), ("span", span.outline)]

/-- The outline of a statement. -/
def Stmt.outline : Stmt → Outline
  | .bind isMut name ty value span =>
    .record "Let"
      [("mutable", Outline.bool isMut), ("name", name.outline), ("ty", statedOutline ty),
        ("value", value.outline), ("span", span.outline)]
  | .assign target value span =>
    .record "Assign"
      [("target", target.outline), ("value", value.outline), ("span", span.outline)]
  | .expr value span => .record "Expr" [("expr", value.outline), ("span", span.outline)]
  | .ret value span => .record "Return" [("value", optionOutline value), ("span", span.outline)]

/-- The outlines of some statements. -/
def stmtOutlines : List Stmt → List Outline
  | [] => []
  | s :: ss => s.outline :: stmtOutlines ss

end

/-- The outline of a binding outside of any function. -/
def LetDecl.outline (d : LetDecl) : Outline :=
  .record "LetDecl"
    [("mutable", Outline.bool d.isMut), ("name", d.name.outline), ("ty", statedOutline d.ty),
      ("value", d.value.outline), ("span", d.span.outline)]

/-- The outline of a function. -/
def FnDecl.outline (d : FnDecl) : Outline :=
  .record "FnDecl"
    [("name", d.name.outline), ("generics", .list (d.generics.map Ident.outline)),
      ("params", .list (d.params.map Param.outline)), ("ret_ty", statedOutline d.retTy),
      ("body", d.body.outline), ("span", d.span.outline)]

/-- The outline of an item. -/
def Item.outline : Item → Outline
  | binding d => .tuple "Let" [d.outline]
  | function d => .tuple "Fn" [d.outline]

/-- The outline of a module. -/
def Module.outline (m : Module) : Outline :=
  .record "Module" [("items", .list (m.items.map Item.outline)), ("span", m.span.outline)]

end ClosureEnv.Syntax
