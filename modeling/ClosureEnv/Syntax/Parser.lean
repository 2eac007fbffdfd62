import ClosureEnv.Syntax.Lexer
import ClosureEnv.Syntax.Tree

/-!
# Reading a module

Recursive descent over the tokens, with a binding power for each operator. Blocks and expressions
may nest `maxNesting` levels deep. A `Level` holds the parsers of the two, one level further in,
and `Level.ofRoom` ties the knot: with no room left, both refuse. Loops along the tokens take the
number of tokens left as their bound, which is enough as every round takes one.
-/

namespace ClosureEnv.Syntax

/-- Why a source is not a module. -/
inductive SyntaxFault where
  /-- A malformed stretch of the source. -/
  | malformed (cause : LexicalError)
  | expected (kind found : TokenKind)
  | expectedIdent (found : TokenKind)
  | unexpectedAtTop (found : TokenKind)
  | unexpectedInExpr (found : TokenKind)
  | unexpectedAfterExpr (found : TokenKind)
  /-- The left side of an assignment is not a variable. -/
  | assignTarget
  /-- Blocks and expressions nest too deep. -/
  | nestingLimit
  deriving DecidableEq, Repr

/-- A fault and the offset where it shows. -/
structure SyntaxError where
  offset : Nat
  fault : SyntaxFault
  deriving DecidableEq, Repr

/-- How many levels deep blocks and expressions may nest. -/
def maxNesting : Nat :=
  256

/-- The wording of a fault. -/
def SyntaxFault.message : SyntaxFault → String
  | malformed e => "lex error: " ++ e.message
  | expected kind found => "expected " ++ kind.describe ++ ", found " ++ found.describe
  | expectedIdent found => "expected identifier, found " ++ found.describe
  | unexpectedAtTop found => "unexpected token at top level: " ++ found.describe
  | unexpectedInExpr found => "unexpected token in expression: " ++ found.describe
  | unexpectedAfterExpr found =>
    "expected ';', '=', or '\x7d' after expression, found " ++ found.describe
  | assignTarget => "assignment target must be a variable"
  | nestingLimit => "nesting depth limit of " ++ toString maxNesting ++ " exceeded"

/-- The wording of an error in a named file. -/
def SyntaxError.message (file : String) (e : SyntaxError) : String :=
  file ++ ":" ++ toString e.offset ++ ": " ++ e.fault.message

/-- The tokens that are left, with their number at hand. -/
structure Rest where
  tokens : List Token
  size : Nat
  size_eq : size = tokens.length := by rfl

namespace Rest

/-- All tokens are left. -/
def ofTokens (ts : List Token) : Rest where
  tokens := ts
  size := ts.length

/-- The next token. -/
def head (r : Rest) : Token :=
  r.tokens.headD default

/-- What is left behind the next token. -/
def tail (r : Rest) : Rest where
  tokens := r.tokens.tail
  size := r.size - 1
  size_eq := by simp [r.size_eq]

end Rest

/-- A parser takes tokens from the front of those that are left. -/
abbrev Parser := StateT Rest (Except SyntaxError)

namespace Parser

/-- The next token, which stays. -/
def peek : Parser Token := fun r => .ok (r.head, r)

/-- Takes the next token. -/
def advance : Parser Token := fun r => .ok (r.head, r.tail)

/-- How many tokens are left. -/
def remaining : Parser Nat := fun r => .ok (r.size, r)

/-- Refuses at the next token. -/
def fail (fault : SyntaxFault) : Parser α := fun r => .error ⟨r.head.span.start, fault⟩

/-- Whether the next token is of a kind. -/
def check (kind : TokenKind) : Parser Bool := do
  return (← peek).kind == kind

/-- Takes the next token if it is of a kind. -/
def eat? (kind : TokenKind) : Parser (Option Token) := do
  if ← check kind then some <$> advance else return none

/-- Takes the next token, which has to be of a kind. -/
def expect (kind : TokenKind) : Parser Token := do
  match (← peek).kind with
  | .error e => fail (.malformed e)
  | found => if found == kind then advance else fail (.expected kind found)

/-- Takes a name. -/
def ident : Parser Ident := do
  match (← peek).kind with
  | .ident text => return ⟨text, (← advance).span⟩
  | found => fail (.expectedIdent found)

/-- Items with commas between them, after those in `done`. -/
def commaItems (item : Parser α) : Nat → Array α → Parser (List α)
  | 0, done => return done.toList
  | bound + 1, done => do
    let done := done.push (← item)
    match ← eat? .comma with
    | some _ => commaItems item bound done
    | none => return done.toList

/-- Items with commas between them, none if the next token closes the list. -/
def commaList (close : TokenKind) (item : Parser α) : Parser (List α) := do
  if ← check close then return []
  else commaItems item (← remaining) #[]

/-- A type: a name, or `fn(A, B) -> R`. -/
def typeExprIn : Nat → Parser TypeExpr
  | 0 => return .path (← ident)
  | bound + 1 => do
    match ← eat? .kwFn with
    | none => return .path (← ident)
    | some kw =>
      let _ ← expect .lParen
      let params ← commaList .rParen (typeExprIn bound)
      let _ ← expect .rParen
      let _ ← expect .arrow
      let ret ← typeExprIn bound
      return .arrow params ret (kw.span.to ret.span)

/-- A type. -/
def typeExpr : Parser TypeExpr := do
  typeExprIn (← remaining)

/-- The type after a colon, if there is one. -/
def statedType : Parser (Option TypeExpr) := do
  match ← eat? .colon with
  | some _ => some <$> typeExpr
  | none => return none

/-- A parameter. -/
def param : Parser Param := do
  let name ← ident
  let ty ← statedType
  return ⟨name, ty, name.span.to ((ty.map TypeExpr.span).getD name.span)⟩

/-- The operator that a token is between two operands, and its binding power. -/
def infixOp? : TokenKind → Option (BinaryOp × Nat)
  | .orOr => some (.or, 1)
  | .andAnd => some (.and, 3)
  | .eqEq => some (.eq, 5)
  | .bangEq => some (.ne, 5)
  | .lt => some (.lt, 7)
  | .le => some (.le, 7)
  | .gt => some (.gt, 7)
  | .ge => some (.ge, 7)
  | .plus => some (.add, 10)
  | .minus => some (.sub, 10)
  | .star => some (.mul, 20)
  | .slash => some (.div, 20)
  | _ => none

/-- The binding power of the operators of one operand. -/
def prefixPower : Nat :=
  100

/-- The parsers of what stands one level further in. -/
structure Level where
  /-- An expression whose operators bind at least as strongly as a power. -/
  expr : Nat → Parser Expr
  /-- A block. -/
  block : Parser Block

namespace Level

/-- The literal that a token is, if any. -/
def literal? : TokenKind → Option Literal
  | .int n => some (.int n)
  | .str s => some (.str s)
  | .kwTrue => some (.bool true)
  | .kwFalse => some (.bool false)
  | .kwNil => some .nil
  | _ => none

/-- The arguments of a call. -/
def call (inner : Level) (callee : Expr) : Parser Expr := do
  let _ ← expect .lParen
  let args ← commaList .rParen (inner.expr 0)
  let close ← expect .rParen
  return .call callee args (callee.span.to close.span)

/-- A conditional, from its keyword on. Another one may follow `else`, without nesting deeper. -/
def condIn (inner : Level) : Nat → Parser Expr
  | 0 => do fail (.unexpectedInExpr (← peek).kind)
  | bound + 1 => do
    let kw ← expect .kwIf
    let test ← inner.expr 0
    let yes ← inner.block
    match ← eat? .kwElse with
    | none => return .cond test yes none (kw.span.to yes.span)
    | some _ =>
      let no ← if ← check .kwIf then condIn inner bound else Expr.block <$> inner.block
      return .cond test yes (some no) (kw.span.to no.span)

/-- A loop, from its keyword on. -/
def loop (inner : Level) : Parser Expr := do
  let kw ← expect .kwWhile
  let test ← inner.expr 0
  let body ← inner.block
  return .loop test body (kw.span.to body.span)

/-- The parameters of a closure, with their bars. -/
def closureParams : Parser (List Param) := do
  match ← eat? .orOr with
  | some _ => return []
  | none =>
    let _ ← expect .pipe
    let params ← commaList .pipe param
    let _ ← expect .pipe
    return params

/-- A closure. Its body reaches as far to the right as an expression can. -/
def closure (inner : Level) : Parser Expr := do
  let start := (← peek).span
  let params ← closureParams
  let body ← inner.expr 0
  return .closure params body (start.to body.span)

/-- An operand. -/
def operand (inner : Level) : Parser Expr := do
  let tok ← peek
  match literal? tok.kind with
  | some lit =>
    let _ ← advance
    return .lit lit tok.span
  | none =>
    match tok.kind with
    | .bang =>
      let _ ← advance
      let x ← inner.expr prefixPower
      return .unary .not x (tok.span.to x.span)
    | .minus =>
      let _ ← advance
      let x ← inner.expr prefixPower
      return .unary .neg x (tok.span.to x.span)
    | .ident _ => Expr.var <$> ident
    | .lParen =>
      let _ ← advance
      let x ← inner.expr 0
      let close ← expect .rParen
      return .paren x (tok.span.to close.span)
    | .lBrace => Expr.block <$> inner.block
    | .kwIf => do condIn inner (← remaining)
    | .kwWhile => loop inner
    | .pipe | .orOr => closure inner
    | .error e => fail (.malformed e)
    | found => fail (.unexpectedInExpr found)

/-- The calls and the operators of power `least` or more that follow an operand. -/
def operators (inner : Level) (least : Nat) : Nat → Expr → Parser Expr
  | 0, lhs => return lhs
  | bound + 1, lhs => do
    let found := (← peek).kind
    if found == .lParen then
      operators inner least bound (← call inner lhs)
    else
      match infixOp? found with
      | none => return lhs
      | some (op, power) =>
        if power < least then return lhs
        else
          let _ ← advance
          let rhs ← inner.expr (power + 1)
          operators inner least bound (.binary op lhs rhs (lhs.span.to rhs.span))

/-- An expression whose operators have power `least` or more. -/
def exprBody (inner : Level) (least : Nat) : Parser Expr := do
  let lhs ← operand inner
  operators inner least (← remaining) lhs

/-- A binding, from its keyword on. -/
def letDecl (inner : Level) : Parser LetDecl := do
  let kw ← expect .kwLet
  let isMut := (← eat? .kwMut).isSome
  let name ← ident
  let ty ← statedType
  let _ ← expect .eq
  let value ← inner.expr 0
  let semi ← expect .semicolon
  return ⟨isMut, name, ty, value, kw.span.to semi.span⟩

/-- A return, from its keyword on. -/
def returnStmt (inner : Level) : Parser Stmt := do
  let kw ← expect .kwReturn
  let value ← if ← check .semicolon then pure none else some <$> inner.expr 0
  let semi ← expect .semicolon
  return .ret value (kw.span.to semi.span)

/-- An entry of a block that starts with an expression: a statement, or the value that the block
ends in. -/
def exprEntry (inner : Level) : Parser (Stmt ⊕ Expr) := do
  let x ← inner.expr 0
  match ← eat? .eq with
  | some _ =>
    match x with
    | .var target =>
      let value ← inner.expr 0
      let semi ← expect .semicolon
      return .inl (.assign target value (x.span.to semi.span))
    | _ => fail .assignTarget
  | none =>
    match ← eat? .semicolon with
    | some semi => return .inl (.expr x (x.span.to semi.span))
    | none =>
      let found := (← peek).kind
      if found == .rBrace then return .inr x
      else if x.endsInBlock then return .inl (.expr x x.span)
      else fail (.unexpectedAfterExpr found)

/-- An entry of a block. -/
def entry (inner : Level) : Parser (Stmt ⊕ Expr) := do
  match (← peek).kind with
  | .kwLet =>
    let d ← letDecl inner
    return .inl (.bind d.isMut d.name d.ty d.value d.span)
  | .kwReturn => Sum.inl <$> returnStmt inner
  | _ => exprEntry inner

/-- The entries up to the closing brace, after the statements in `done`. -/
def entries (inner : Level) : Nat → Array Stmt → Parser (List Stmt × Option Expr)
  | 0, done => return (done.toList, none)
  | bound + 1, done => do
    if ← check .rBrace then return (done.toList, none)
    else
      match ← entry inner with
      | .inl stmt => entries inner bound (done.push stmt)
      | .inr tail => return (done.toList, some tail)

/-- A block. -/
def blockBody (inner : Level) : Parser Block := do
  let opening ← expect .lBrace
  let (stmts, tail) ← entries inner (← remaining) #[]
  let close ← expect .rBrace
  return .mk stmts tail (opening.span.to close.span)

/-- The parsers with room for some more levels. -/
def ofRoom : Nat → Level
  | 0 => ⟨fun _ => fail .nestingLimit, fail .nestingLimit⟩
  | room + 1 =>
    let inner := ofRoom room
    ⟨exprBody inner, blockBody inner⟩

end Level

/-- The parsers outside of any block. -/
def outermost : Level :=
  Level.ofRoom maxNesting

/-- The type parameters of a function. -/
def generics : Parser (List Ident) := do
  match ← eat? .lt with
  | none => return []
  | some _ =>
    let names ← commaList .gt ident
    let _ ← expect .gt
    return names

/-- A function, from its keyword on. -/
def fnDecl : Parser FnDecl := do
  let kw ← expect .kwFn
  let name ← ident
  let generics ← generics
  let _ ← expect .lParen
  let params ← commaList .rParen param
  let _ ← expect .rParen
  let retTy ← match ← eat? .arrow with
    | some _ => some <$> typeExpr
    | none => pure none
  let body ← outermost.block
  return ⟨name, generics, params, retTy, body, kw.span.to body.span⟩

/-- The items up to the end of the source, after those in `done`. -/
def items : Nat → Array Item → Parser (List Item)
  | 0, done => return done.toList
  | bound + 1, done => do
    match (← peek).kind with
    | .eof => return done.toList
    | .kwLet => items bound (done.push (.binding (← Level.letDecl outermost)))
    | .kwFn => items bound (done.push (.function (← fnDecl)))
    | found => fail (.unexpectedAtTop found)

/-- A whole module. -/
def source : Parser Module := do
  let start := (← peek).span
  let items ← items (← remaining) #[]
  return ⟨items, start.to (← peek).span⟩

end Parser

/-- The module that a source writes. -/
def parse (source : String) : Except SyntaxError Module :=
  (Parser.source.run (.ofTokens (tokens source))).map Prod.fst

end ClosureEnv.Syntax
