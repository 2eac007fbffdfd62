import ClosureEnv.Syntax.Tree
import ClosureEnv.Json.Value

/-!
# Syntax trees in JSON

A node is an object under its own name, with its parts in their order. A node of one part or of
unnamed parts holds them without keys.
-/

namespace ClosureEnv.Syntax

/-- A span in JSON. -/
def Span.toJson (s : Span) : Json :=
  .object [("start", .nat s.start), ("end", .nat s.stop)]

/-- A name in JSON. -/
def Ident.toJson (x : Ident) : Json :=
  .object [("text", .text x.text), ("span", x.span.toJson)]

mutual

/-- A type in JSON. -/
def TypeExpr.toJson : TypeExpr → Json
  | .path name => .tagged "Path" name.toJson
  | .arrow params ret span =>
    .tagged "Arrow" (.object
      [("params", .list (toJsons params)), ("ret", ret.toJson), ("span", span.toJson)])

/-- Some types in JSON. -/
def TypeExpr.toJsons : List TypeExpr → List Json
  | [] => []
  | t :: ts => t.toJson :: toJsons ts

end

/-- A parameter in JSON. -/
def Param.toJson (p : Param) : Json :=
  .object
    [("name", p.name.toJson), ("ty", .ofOption TypeExpr.toJson p.ty), ("span", p.span.toJson)]

/-- A literal in JSON. -/
def Literal.toJson : Literal → Json
  | int n => .tagged "Int" (.nat n)
  | str s => .tagged "Str" (.text s)
  | bool b => .tagged "Bool" (.bool b)
  | nil => .text "Nil"

mutual

/-- An expression in JSON. -/
def Expr.toJson : Expr → Json
  | .lit value span => .tagged "Lit" (.list [value.toJson, span.toJson])
  | .var name => .tagged "Var" name.toJson
  | .unary op operand span =>
    .tagged "Unary" (.object
      [("op", .text op.name), ("expr", operand.toJson), ("span", span.toJson)])
  | .call callee args span =>
    .tagged "Call" (.object
      [("callee", callee.toJson), ("args", .list (exprsToJson args)), ("span", span.toJson)])
  | .binary op lhs rhs span =>
    .tagged "Binary" (.object
      [("lhs", lhs.toJson), ("op", .text op.name), ("rhs", rhs.toJson), ("span", span.toJson)])
  | .paren inner span =>
    .tagged "Paren" (.object [("inner", inner.toJson), ("span", span.toJson)])
  | .block body => .tagged "Block" body.toJson
  | .cond test yes no span =>
    .tagged "If" (.object
      [("cond", test.toJson), ("then_", yes.toJson), ("else_", optionToJson no),
        ("span", span.toJson)])
  | .loop test body span =>
    .tagged "While" (.object
      [("cond", test.toJson), ("body", body.toJson), ("span", span.toJson)])
  | .closure params body span =>
    .tagged "Closure" (.object
      [("params", .list (params.map Param.toJson)), ("body", body.toJson), ("span", span.toJson)])

/-- An expression that may be left out, in JSON. -/
def optionToJson : Option Expr → Json
  | none => .null
  | some x => x.toJson

/-- Some expressions in JSON. -/
def exprsToJson : List Expr → List Json
  | [] => []
  | x :: xs => x.toJson :: exprsToJson xs

/-- A block in JSON. -/
def Block.toJson : Block → Json
  | .mk stmts tail span =>
    .object
      [("stmts", .list (stmtsToJson stmts)), ("tail", optionToJson tail), ("span", span.toJson)]

/-- A statement in JSON. -/
def Stmt.toJson : Stmt → Json
  | .bind isMut name ty value span =>
    .tagged "Let" (.object
      [("mutable", .bool isMut), ("name", name.toJson), ("ty", .ofOption TypeExpr.toJson ty),
        ("value", value.toJson), ("span", span.toJson)])
  | .assign target value span =>
    .tagged "Assign" (.object
      [("target", target.toJson), ("value", value.toJson), ("span", span.toJson)])
  | .expr value span =>
    .tagged "Expr" (.object [("expr", value.toJson), ("span", span.toJson)])
  | .ret value span =>
    .tagged "Return" (.object [("value", optionToJson value), ("span", span.toJson)])

/-- Some statements in JSON. -/
def stmtsToJson : List Stmt → List Json
  | [] => []
  | s :: ss => s.toJson :: stmtsToJson ss

end

/-- A binding outside of any function, in JSON. -/
def LetDecl.toJson (d : LetDecl) : Json :=
  .object
    [("mutable", .bool d.isMut), ("name", d.name.toJson), ("ty", .ofOption TypeExpr.toJson d.ty),
      ("value", d.value.toJson), ("span", d.span.toJson)]

/-- A function in JSON. -/
def FnDecl.toJson (d : FnDecl) : Json :=
  .object
    [("name", d.name.toJson), ("generics", .list (d.generics.map Ident.toJson)),
      ("params", .list (d.params.map Param.toJson)), ("ret_ty", .ofOption TypeExpr.toJson d.retTy),
      ("body", d.body.toJson), ("span", d.span.toJson)]

/-- An item in JSON. -/
def Item.toJson : Item → Json
  | binding d => .tagged "Let" d.toJson
  | function d => .tagged "Fn" d.toJson

/-- A module in JSON. -/
def Module.toJson (m : Module) : Json :=
  .object [("items", .list (m.items.map Item.toJson)), ("span", m.span.toJson)]

end ClosureEnv.Syntax
