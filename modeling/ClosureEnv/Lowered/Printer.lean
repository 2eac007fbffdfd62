import ClosureEnv.Lowered.Unit
import ClosureEnv.Text.Lines
import ClosureEnv.Text.Quoted

/-!
# The text of a lowered unit

Statements stand on lines of their own, and what is inside of an expression on the line of that
expression.
-/

namespace ClosureEnv.Lowered

/-- The way to an environment. -/
def EnvRef.text (r : EnvRef) : String :=
  let root := match r.root with
    | .entered name => name
    | .envParam => Name.envParam
  r.hops.foldl (fun out _ => out ++ "." ++ Name.parentField) root

/-- A field of an environment. -/
def Place.text (p : Place) : String :=
  p.env.text ++ "." ++ p.field

/-- The environment that a closure is made with. -/
def EnvOperand.text : EnvOperand → String
  | ref r => r.text
  | singleton env => env ++ "::" ++ Name.instanceAccessor ++ "()"
  | fresh env => "new " ++ env ++ "()"

/-- A literal. -/
def literalText : Syntax.Literal → String
  | .int n => toString n
  | .str s => Text.quoted s
  | .bool b => if b then "true" else "false"
  | .nil => "nil"

/-- The word for how an environment comes into existence. -/
def Allocation.text : Allocation → String
  | alloc => "new"
  | stackDecl => "stack"

/-- Parts in braces. -/
def braced (parts : List String) : String :=
  if parts.isEmpty then "\x7b \x7d" else "\x7b " ++ " ".intercalate parts ++ " \x7d"

mutual

/-- An expression, on one line. -/
def Expr.text : Expr → String
  | .lit value => literalText value
  | .uninit => "uninit"
  | .var _ name => name
  | .global name => name
  | .fn name => name
  | .load place => place.text
  | .unary op operand => op.symbol ++ operand.text
  | .binary op lhs rhs => "(" ++ lhs.text ++ " " ++ op.symbol ++ " " ++ rhs.text ++ ")"
  | .call callee args => callee.text ++ "(" ++ ", ".intercalate (exprTexts args) ++ ")"
  | .cond test yes no => "if " ++ test.text ++ " " ++ yes.inline ++ elseText no
  | .block body => body.inline
  | .loop test body => "while " ++ test.text ++ " " ++ body.inline
  | .makeClosure lambda env => "closure " ++ lambda ++ " with " ++ env.text

/-- The other branch of a conditional. -/
def elseText : Option Expr → String
  | none => ""
  | some e => " else " ++ e.text

/-- Some expressions. -/
def exprTexts : List Expr → List String
  | [] => []
  | e :: es => e.text :: exprTexts es

/-- The value that a block ends in. -/
def tailTexts : Option Expr → List String
  | none => []
  | some e => [e.text]

/-- A block on one line. -/
def Block.inline : Block → String
  | .mk stmts tail =>
    braced (Text.lines ("".intercalate ((stmtTexts stmts).map (· ++ "\n"))) ++ tailTexts tail)

/-- A statement, without the end of its line. -/
def Stmt.text : Stmt → String
  | .enter _ env name kind args parent =>
    let parts := exprTexts args ++ (parent.map EnvRef.text).toList
    "enter " ++ name ++ " = " ++ kind.text ++ " " ++ env ++ "(" ++ ", ".intercalate parts ++ ");"
  | .store place value => place.text ++ " = " ++ value.text ++ ";"
  | .bind _ name value => "let " ++ name ++ " = " ++ value.text ++ ";"
  | .assign _ name value => name ++ " = " ++ value.text ++ ";"
  | .assignGlobal name value => name ++ " = " ++ value.text ++ ";"
  | .expr value => value.text ++ ";"
  | .ret (some value) => "return " ++ value.text ++ ";"
  | .ret none => "return;"

/-- Some statements. -/
def stmtTexts : List Stmt → List String
  | [] => []
  | s :: ss => s.text :: stmtTexts ss

end

/-- A line, some levels further in. -/
def line (level : Nat) (s : String) : String :=
  String.ofList (List.replicate (4 * level) ' ') ++ s ++ "\n"

/-- The lines of a body. -/
def bodyText (b : Block) : String :=
  "".intercalate ((stmtTexts b.stmts ++ tailTexts b.tail).map (line 1))

/-- The lines of a type of environment. -/
def envText (e : EnvType) : String :=
  let fields := e.fields.map fun f =>
    "field " ++ f.name ++ ": " ++ f.ty.describe ++ if f.var.isSome then "" else " (retained)"
  let expansion :=
    if e.isExpandable then ["field " ++ Name.expansionField ++ ": " ++ Ty.object.describe] else []
  let parent := e.parent.toList.map fun p => "field " ++ Name.parentField ++ ": &" ++ p
  let constructor := e.constructor?.toList.map fun ps =>
    "ctor(" ++ ", ".intercalate (ps.map fun p => p.1 ++ ": " ++ p.2.describe) ++ ")"
  let accessor :=
    if e.isSingleton then
      ["static " ++ Name.instanceField ++ ": " ++ e.name,
        "static fn " ++ Name.instanceAccessor ++ "() -> " ++ e.name]
    else []
  line 0 "" ++ line 0 ("env " ++ e.kind.describe ++ " " ++ e.name ++ " [" ++ e.identity.text ++ "]")
    ++ "".intercalate ((fields ++ expansion ++ parent ++ constructor ++ accessor).map (line 1))

/-- The lines of a global. -/
def globalText (g : Global) : String :=
  line 0 "" ++ line 0
    ((if g.isMut then "let mut " else "let ") ++ g.name ++ " = " ++ g.init.text ++ ";")

/-- The lines of a function. -/
def functionText (f : Function) : String :=
  line 0 ""
    ++ line 0 ("fn " ++ f.name ++ "(" ++ ", ".intercalate (f.params.map Param.name) ++ ") \x7b")
    ++ bodyText f.body ++ line 0 "\x7d"

/-- The lines of a lambda. -/
def lambdaText (l : Lambda) : String :=
  let params := (Name.envParam ++ ": &" ++ l.env) :: l.params.map Param.name
  line 0 "" ++ line 0 ("lambda " ++ l.name ++ "(" ++ ", ".intercalate params ++ ") \x7b")
    ++ bodyText l.body ++ line 0 "\x7d"

end Lowered

/-- The text of a unit. -/
def LoweredUnit.text (u : LoweredUnit) : String :=
  Lowered.line 0 ("unit " ++ u.unit ++ " generation " ++ toString u.generation)
    ++ "".intercalate (u.envs.map Lowered.envText ++ u.globals.map Lowered.globalText
      ++ u.functions.map Lowered.functionText ++ u.lambdas.map Lowered.lambdaText)

end ClosureEnv
