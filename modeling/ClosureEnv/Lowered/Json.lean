import ClosureEnv.Lowered.Unit
import ClosureEnv.Syntax.Json

/-!
# Lowered units in JSON

A node is an object under its own name, with its parts in their order.
-/

namespace ClosureEnv.Lowered

/-- The way to an environment in JSON. -/
def EnvRef.toJson (r : EnvRef) : Json :=
  let root := match r.root with
    | .entered name => Json.tagged "Local" (.text name)
    | .envParam => .text "EnvParam"
  .object [("root", root), ("hops", .list (r.hops.map .text)), ("env", .text r.env)]

/-- A field of an environment in JSON. -/
def Place.toJson (p : Place) : Json :=
  .object [("env", p.env.toJson), ("field", .text p.field)]

/-- The environment that a closure is made with, in JSON. -/
def EnvOperand.toJson : EnvOperand → Json
  | ref r => .tagged "Ref" r.toJson
  | singleton env => .tagged "Singleton" (.text env)
  | fresh env => .tagged "Fresh" (.text env)

/-- How an environment comes into existence, in JSON. -/
def Allocation.toJson : Allocation → Json
  | alloc => .text "Alloc"
  | stackDecl => .text "StackDecl"

/-- A write to a variable in JSON. -/
def writeJson (v : VarId) (name : String) (value : Json) : Json :=
  .object [("var", .nat v), ("name", .text name), ("value", value)]

mutual

/-- An expression in JSON. -/
def Expr.toJson : Expr → Json
  | .lit value => .tagged "Lit" value.toJson
  | .uninit => .text "Uninit"
  | .var v name => .tagged "Local" (.object [("var", .nat v), ("name", .text name)])
  | .global name => .tagged "Global" (.text name)
  | .fn name => .tagged "Fn" (.text name)
  | .load place => .tagged "Load" place.toJson
  | .unary op operand =>
    .tagged "Unary" (.object [("op", .text op.name), ("expr", operand.toJson)])
  | .binary op lhs rhs =>
    .tagged "Binary" (.object
      [("lhs", lhs.toJson), ("op", .text op.name), ("rhs", rhs.toJson)])
  | .call callee args =>
    .tagged "Call" (.object [("callee", callee.toJson), ("args", .list (exprsToJson args))])
  | .cond test yes no =>
    .tagged "If" (.object
      [("cond", test.toJson), ("then_", yes.toJson), ("else_", optionToJson no)])
  | .block body => .tagged "Block" body.toJson
  | .loop test body =>
    .tagged "While" (.object [("cond", test.toJson), ("body", body.toJson)])
  | .makeClosure lambda env =>
    .tagged "MakeClosure" (.object [("lambda", .text lambda), ("env", env.toJson)])

/-- An optional expression in JSON. -/
def optionToJson : Option Expr → Json
  | none => .null
  | some e => e.toJson

/-- Some expressions in JSON. -/
def exprsToJson : List Expr → List Json
  | [] => []
  | e :: es => e.toJson :: exprsToJson es

/-- A block in JSON. -/
def Block.toJson : Block → Json
  | .mk stmts tail =>
    .object [("stmts", .list (stmtsToJson stmts)), ("tail", optionToJson tail)]

/-- A statement in JSON. -/
def Stmt.toJson : Stmt → Json
  | .enter plan env name kind args parent =>
    .tagged "EnterEnv" (.object
      [("plan", .nat plan), ("env", .text env), ("local", .text name), ("kind", kind.toJson),
        ("args", .list (exprsToJson args)), ("parent", .ofOption EnvRef.toJson parent)])
  | .store place value =>
    .tagged "Store" (.object [("place", place.toJson), ("value", value.toJson)])
  | .bind v name value => .tagged "Let" (writeJson v name value.toJson)
  | .assign v name value => .tagged "Assign" (writeJson v name value.toJson)
  | .assignGlobal name value =>
    .tagged "AssignGlobal" (.object [("name", .text name), ("value", value.toJson)])
  | .expr value => .tagged "Expr" value.toJson
  | .ret value => .tagged "Return" (optionToJson value)

/-- Some statements in JSON. -/
def stmtsToJson : List Stmt → List Json
  | [] => []
  | s :: ss => s.toJson :: stmtsToJson ss

end

/-- A parameter in JSON. -/
def Param.toJson (p : Param) : Json :=
  .object [("var", .nat p.var), ("name", .text p.name)]

/-- A function in JSON. -/
def Function.toJson (f : Function) : Json :=
  .object
    [("name", .text f.name), ("params", .list (f.params.map Param.toJson)),
      ("body", f.body.toJson)]

/-- A lambda in JSON. -/
def Lambda.toJson (l : Lambda) : Json :=
  .object
    [("name", .text l.name), ("closure", .nat l.closure), ("env", .text l.env),
      ("env_kind", .text l.envKind.name), ("params", .list (l.params.map Param.toJson)),
      ("body", l.body.toJson)]

/-- A global in JSON. -/
def Global.toJson (g : Global) : Json :=
  .object [("name", .text g.name), ("mutable", .bool g.isMut), ("init", g.init.toJson)]

/-- How a closure reaches a variable, in JSON. -/
def CaptureAccess.toJson (c : CaptureAccess) : Json :=
  .object
    [("closure", .nat c.closure), ("lambda", .text c.lambda), ("var", .nat c.var),
      ("name", .text c.name), ("path", c.path.toJson)]

end Lowered

/-- A unit in JSON. -/
def LoweredUnit.toJson (u : LoweredUnit) : Json :=
  .object
    [("unit", .text u.unit),
      ("generation", .nat u.generation),
      ("envs", .list (u.envs.map EnvType.toJson)),
      ("functions", .list (u.functions.map Lowered.Function.toJson)),
      ("lambdas", .list (u.lambdas.map Lowered.Lambda.toJson)),
      ("globals", .list (u.globals.map Lowered.Global.toJson)),
      ("captures", .list (u.captures.map Lowered.CaptureAccess.toJson)),
      ("report", u.report.toJson)]

end ClosureEnv
