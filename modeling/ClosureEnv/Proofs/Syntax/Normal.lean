import ClosureEnv.Proofs.Syntax.Writing
import ClosureEnv.Syntax.Parser

/-!
# Normal trees

`kinds` lists the tokens of a tree as the grammar writes them, and a tree is normal if they lead
back to it: operands that bind less than their operator are in parentheses (`Shaped`), the tokens
can be written, and the tree is not too deep. `spanless` leaves the spans out.
-/

namespace ClosureEnv.Syntax

open TokenKind (ident kwFn kwLet kwMut kwIf kwElse kwWhile kwReturn lParen rParen lBrace rBrace comma
  colon semicolon pipe orOr eq lt gt)

/-! ## The tokens of a tree -/

/-- The token of a literal. -/
def Literal.kind : Literal → TokenKind
  | .int n => .int n
  | .str s => .str s
  | .bool true => .kwTrue
  | .bool false => .kwFalse
  | .nil => .kwNil

/-- The token of an operator. -/
def UnaryOp.kind : UnaryOp → TokenKind
  | not => .bang
  | neg => .minus

/-- The token of an operator. -/
def BinaryOp.kind : BinaryOp → TokenKind
  | or => .orOr
  | and => .andAnd
  | eq => .eqEq
  | ne => .bangEq
  | lt => .lt
  | le => .le
  | gt => .gt
  | ge => .ge
  | add => .plus
  | sub => .minus
  | mul => .star
  | div => .slash

/-- The tokens of a list with commas. -/
def commas (kss : List (List TokenKind)) : List TokenKind :=
  [comma].intercalate kss

mutual

/-- The tokens of a type. -/
def TypeExpr.kinds : TypeExpr → List TokenKind
  | .path name => [ident name.text]
  | .arrow params ret _ =>
    kwFn :: lParen :: commas (typesKinds params) ++ rParen :: TokenKind.arrow :: ret.kinds

/-- The tokens of types, each on its own. -/
def typesKinds : List TypeExpr → List (List TokenKind)
  | [] => []
  | t :: ts => t.kinds :: typesKinds ts

end

/-- The tokens of a type that may be stated, with those in front of it. -/
def statedKinds (mark : TokenKind) : Option TypeExpr → List TokenKind
  | none => []
  | some t => mark :: t.kinds

/-- The tokens of a parameter. -/
def Param.kinds (p : Param) : List TokenKind :=
  ident p.name.text :: statedKinds colon p.ty

/-- The tokens of the parameters of a closure, with their bars. -/
def closureKinds : List Param → List TokenKind
  | [] => [orOr]
  | p :: ps => pipe :: commas ((p :: ps).map Param.kinds) ++ [pipe]

mutual

/-- The tokens of an expression. -/
def Expr.kinds : Expr → List TokenKind
  | .lit v _ => [v.kind]
  | .var name => [ident name.text]
  | .unary op operand _ => op.kind :: operand.kinds
  | .call callee args _ => callee.kinds ++ lParen :: commas (exprsKinds args) ++ [rParen]
  | .binary op lhs rhs _ => lhs.kinds ++ op.kind :: rhs.kinds
  | .paren inner _ => lParen :: inner.kinds ++ [rParen]
  | .block body => body.kinds
  | .cond test yes no _ => kwIf :: test.kinds ++ (yes.kinds ++ elseKinds no)
  | .loop test body _ => kwWhile :: test.kinds ++ body.kinds
  | .closure params body _ => closureKinds params ++ body.kinds

/-- The tokens of an expression that may be there. -/
def optionKinds : Option Expr → List TokenKind
  | none => []
  | some e => e.kinds

/-- The tokens of what may follow a conditional. -/
def elseKinds : Option Expr → List TokenKind
  | none => []
  | some e => kwElse :: e.kinds

/-- The tokens of expressions, each on its own. -/
def exprsKinds : List Expr → List (List TokenKind)
  | [] => []
  | e :: es => e.kinds :: exprsKinds es

/-- The tokens of a block. -/
def Block.kinds : Block → List TokenKind
  | .mk ss tail _ => lBrace :: stmtsKinds ss ++ (optionKinds tail ++ [rBrace])

/-- The tokens of a statement. -/
def Stmt.kinds : Stmt → List TokenKind
  | .bind isMut name ty value _ =>
    kwLet :: (if isMut then [kwMut] else []) ++
      ident name.text :: statedKinds colon ty ++ eq :: value.kinds ++ [semicolon]
  | .assign target value _ => ident target.text :: eq :: value.kinds ++ [semicolon]
  | .expr value _ => value.kinds ++ [semicolon]
  | .ret value _ => kwReturn :: optionKinds value ++ [semicolon]

/-- The tokens of statements. -/
def stmtsKinds : List Stmt → List TokenKind
  | [] => []
  | s :: ss => s.kinds ++ stmtsKinds ss

end

/-- The tokens of a binding. -/
def LetDecl.kinds (d : LetDecl) : List TokenKind :=
  kwLet :: (if d.isMut then [kwMut] else []) ++
    ident d.name.text :: statedKinds colon d.ty ++ eq :: d.value.kinds ++ [semicolon]

/-- The tokens of type parameters. -/
def genericsKinds : List Ident → List TokenKind
  | [] => []
  | g :: gs => lt :: commas ((g :: gs).map fun g => [ident g.text]) ++ [gt]

/-- The tokens of a function. -/
def FnDecl.kinds (d : FnDecl) : List TokenKind :=
  kwFn :: ident d.name.text :: genericsKinds d.generics ++
    lParen :: commas (d.params.map Param.kinds) ++
    rParen :: statedKinds TokenKind.arrow d.retTy ++ d.body.kinds

/-- The tokens of an item. -/
def Item.kinds : Item → List TokenKind
  | .binding d => d.kinds
  | .function d => d.kinds

/-- The tokens of a module. -/
def Module.kinds (m : Module) : List TokenKind :=
  m.items.flatMap Item.kinds

/-! ## Trees without spans -/

/-- A name without its span. -/
def Ident.spanless (name : Ident) : Ident :=
  ⟨name.text, default⟩

mutual

/-- A type without its spans. -/
def TypeExpr.spanless : TypeExpr → TypeExpr
  | .path name => .path name.spanless
  | .arrow params ret _ => .arrow (typesSpanless params) ret.spanless default

/-- Types without their spans. -/
def typesSpanless : List TypeExpr → List TypeExpr
  | [] => []
  | t :: ts => t.spanless :: typesSpanless ts

end

/-- A parameter without its spans. -/
def Param.spanless (p : Param) : Param :=
  ⟨p.name.spanless, p.ty.map TypeExpr.spanless, default⟩

mutual

/-- An expression without its spans. -/
def Expr.spanless : Expr → Expr
  | .lit v _ => .lit v default
  | .var name => .var name.spanless
  | .unary op operand _ => .unary op operand.spanless default
  | .call callee args _ => .call callee.spanless (exprsSpanless args) default
  | .binary op lhs rhs _ => .binary op lhs.spanless rhs.spanless default
  | .paren inner _ => .paren inner.spanless default
  | .block body => .block body.spanless
  | .cond test yes no _ => .cond test.spanless yes.spanless (optionSpanless no) default
  | .loop test body _ => .loop test.spanless body.spanless default
  | .closure params body _ => .closure (params.map Param.spanless) body.spanless default

/-- An expression that may be there, without its spans. -/
def optionSpanless : Option Expr → Option Expr
  | none => none
  | some e => some e.spanless

/-- Expressions without their spans. -/
def exprsSpanless : List Expr → List Expr
  | [] => []
  | e :: es => e.spanless :: exprsSpanless es

/-- A block without its spans. -/
def Block.spanless : Block → Block
  | .mk ss tail _ => .mk (stmtsSpanless ss) (optionSpanless tail) default

/-- A statement without its spans. -/
def Stmt.spanless : Stmt → Stmt
  | .bind isMut name ty value _ =>
    .bind isMut name.spanless (ty.map TypeExpr.spanless) value.spanless default
  | .assign target value _ => .assign target.spanless value.spanless default
  | .expr value _ => .expr value.spanless default
  | .ret value _ => .ret (optionSpanless value) default

/-- Statements without their spans. -/
def stmtsSpanless : List Stmt → List Stmt
  | [] => []
  | s :: ss => s.spanless :: stmtsSpanless ss

end

/-- A binding without its spans. -/
def LetDecl.spanless (d : LetDecl) : LetDecl :=
  ⟨d.isMut, d.name.spanless, d.ty.map TypeExpr.spanless, d.value.spanless, default⟩

/-- A function without its spans. -/
def FnDecl.spanless (d : FnDecl) : FnDecl :=
  ⟨d.name.spanless, d.generics.map Ident.spanless, d.params.map Param.spanless,
    d.retTy.map TypeExpr.spanless, d.body.spanless, default⟩

/-- An item without its spans. -/
def Item.spanless : Item → Item
  | .binding d => .binding d.spanless
  | .function d => .function d.spanless

/-- A module without its spans. -/
def Module.spanless (m : Module) : Module :=
  ⟨m.items.map Item.spanless, default⟩

/-! ## How operands nest -/

/-- The level at which an operator binds. -/
def BinaryOp.power : BinaryOp → Nat
  | or => 1
  | and => 3
  | eq | ne => 5
  | lt | le | gt | ge => 7
  | add | sub => 10
  | mul | div => 20

namespace Expr

/-- The level of the operator that an expression is made with. -/
def power? : Expr → Option Nat
  | binary op _ _ _ => some op.power
  | _ => none

/-- Whether the right edge of an expression is a closure, which would take what follows it. -/
def EndsInClosure : Expr → Prop
  | binary _ _ rhs _ => rhs.EndsInClosure
  | unary _ operand _ => operand.EndsInClosure
  | closure .. => True
  | _ => False

/-- Whether arguments can follow an expression as it is. -/
def IsCallee : Expr → Prop
  | binary .. | unary .. | closure .. => False
  | _ => True

/-- Whether an expression can stand behind an `else`. -/
def IsElse : Expr → Prop
  | block _ | cond .. => True
  | _ => False

end Expr

mutual

/-- Every operand of an expression, and every part of a conditional, stands where the grammar reads
it as such. -/
def Expr.Shaped : Expr → Prop
  | .lit _ _ | .var _ => True
  | .unary _ operand _ => operand.power? = none ∧ operand.Shaped
  | .call callee args _ => callee.IsCallee ∧ callee.Shaped ∧ exprsShaped args
  | .binary op lhs rhs _ =>
    ((∀ p ∈ lhs.power?, op.power ≤ p) ∧ ¬ lhs.EndsInClosure ∧ lhs.Shaped) ∧
      (∀ p ∈ rhs.power?, op.power < p) ∧ rhs.Shaped
  | .paren inner _ => inner.Shaped
  | .block body => body.Shaped
  | .cond test yes no _ =>
    test.Shaped ∧ yes.Shaped ∧ (∀ e ∈ no, e.IsElse) ∧ optionShaped no
  | .loop test body _ => test.Shaped ∧ body.Shaped
  | .closure _ body _ => body.Shaped

/-- So do those of an expression that may be there. -/
def optionShaped : Option Expr → Prop
  | none => True
  | some e => e.Shaped

/-- So do those of expressions. -/
def exprsShaped : List Expr → Prop
  | [] => True
  | e :: es => e.Shaped ∧ exprsShaped es

/-- So do those of a block. -/
def Block.Shaped : Block → Prop
  | .mk ss tail _ => stmtsShaped ss ∧ optionShaped tail

/-- So do those of a statement. -/
def Stmt.Shaped : Stmt → Prop
  | .bind _ _ _ value _ | .assign _ value _ | .expr value _ => value.Shaped
  | .ret value _ => optionShaped value

/-- So do those of statements. -/
def stmtsShaped : List Stmt → Prop
  | [] => True
  | s :: ss => s.Shaped ∧ stmtsShaped ss

end

/-- So do those of an item. -/
def Item.Shaped : Item → Prop
  | .binding d => d.value.Shaped
  | .function d => d.body.Shaped

/-- So do those of a module. -/
def Module.Shaped (m : Module) : Prop :=
  ∀ item ∈ m.items, item.Shaped

mutual

/-- How many levels of expressions and blocks there are within an expression. Its left operand and
its callee are at the level of the expression itself. -/
def Expr.within : Expr → Nat
  | .lit _ _ | .var _ => 0
  | .unary _ operand _ => operand.within + 1
  | .call callee args _ => max callee.within (exprsDepth args)
  | .binary _ lhs rhs _ => max lhs.within (rhs.within + 1)
  | .paren inner _ => inner.within + 1
  | .block body => body.depth
  | .cond test yes no _ => max (test.within + 1) (max yes.depth (optionWithin no))
  | .loop test body _ => max (test.within + 1) body.depth
  | .closure _ body _ => body.within + 1

/-- How many levels there are within an expression that may be there. -/
def optionWithin : Option Expr → Nat
  | none => 0
  | some e => e.within

/-- How many levels an expression has that may be there. -/
def optionDepth : Option Expr → Nat
  | none => 0
  | some e => e.within + 1

/-- How many levels expressions have. -/
def exprsDepth : List Expr → Nat
  | [] => 0
  | e :: es => max (e.within + 1) (exprsDepth es)

/-- How many levels a block has. -/
def Block.depth : Block → Nat
  | .mk ss tail _ => max (stmtsDepth ss) (optionDepth tail) + 1

/-- How many levels a statement has. -/
def Stmt.depth : Stmt → Nat
  | .bind _ _ _ value _ | .assign _ value _ | .expr value _ => value.within + 1
  | .ret value _ => optionDepth value

/-- How many levels statements have. -/
def stmtsDepth : List Stmt → Nat
  | [] => 0
  | s :: ss => max s.depth (stmtsDepth ss)

end

/-- How many levels an item has. -/
def Item.depth : Item → Nat
  | .binding d => d.value.within + 1
  | .function d => d.body.depth

/-- A module that its tokens lead back to. -/
structure Module.Normal (m : Module) : Prop where
  /-- Operands, callees and what follows an `else` are such. -/
  shaped : m.Shaped
  /-- Names are words and no keywords, and the integers fit. -/
  writable : ∀ k ∈ m.kinds, k.Writable
  /-- No item is too deep. -/
  depth_le : ∀ item ∈ m.items, item.depth ≤ maxNesting

/-! ## What may follow an expression -/

/-- An expression whose operators bind at level `least` or above ends where the token follows. -/
def Stops (least : Nat) (k : TokenKind) : Prop :=
  k ≠ .lParen ∧ ∀ q ∈ Parser.infixOp? k, q.2 < least

/-- The token can follow an expression whose operand or body at the right end does not take it. -/
def Expr.Admits (k : TokenKind) : Expr → Prop
  | binary op _ rhs _ => Stops (op.power + 1) k ∧ rhs.Admits k
  | unary _ operand _ => Stops Parser.prefixPower k ∧ operand.Admits k
  | closure _ body _ => Stops 0 k ∧ body.Admits k
  | _ => True

/-- The token of an operator is read as that operator. -/
theorem infixOp?_kind (op : BinaryOp) : Parser.infixOp? op.kind = some (op, op.power) := by
  cases op <;> rfl

/-- What is read as an operator is its token. -/
theorem infixOp?_eq_some {k : TokenKind} {op : BinaryOp} {power : Nat}
    (h : Parser.infixOp? k = some (op, power)) : k = op.kind ∧ power = op.power := by
  unfold Parser.infixOp? at h
  split at h <;> cases h <;> exact ⟨rfl, rfl⟩

/-- No operator binds like those of one operand. -/
theorem BinaryOp.power_lt_prefixPower (op : BinaryOp) : op.power < Parser.prefixPower := by
  cases op <;> decide

/-- An operator is no parenthesis. -/
theorem BinaryOp.kind_ne_lParen (op : BinaryOp) : op.kind ≠ .lParen := by
  cases op <;> decide

namespace Stops

variable {least : Nat} {k : TokenKind}

/-- What stops at a level stops at those above. -/
theorem mono (h : Stops least k) {power : Nat} (hp : least ≤ power) : Stops power k :=
  ⟨h.1, fun q hq => Nat.lt_of_lt_of_le (h.2 q hq) hp⟩

/-- An operator that binds less stops an expression. -/
theorem of_kind {op : BinaryOp} (h : op.power < least) : Stops least op.kind := by
  refine ⟨op.kind_ne_lParen, fun q hq => ?_⟩
  rw [infixOp?_kind] at hq
  cases hq
  exact h

/-- An operator that stops an expression binds less. -/
theorem power_lt {op : BinaryOp} (h : Stops least op.kind) : op.power < least :=
  h.2 _ (infixOp?_kind op)

/-- A token that stops every expression can follow any. -/
theorem admits (h : Stops 0 k) : ∀ e : Expr, e.Admits k
  | .binary _ _ rhs _ => ⟨h.mono (Nat.zero_le _), h.admits rhs⟩
  | .unary _ operand _ => ⟨h.mono (Nat.zero_le _), h.admits operand⟩
  | .closure _ body _ => ⟨h, h.admits body⟩
  | .lit .. | .var _ | .call .. | .paren .. | .block _ | .cond .. | .loop .. => trivial

end Stops

namespace Expr

/-- Arguments can follow a callee, and nothing else. -/
theorem admits_lParen_iff (e : Expr) : e.Admits .lParen ↔ e.IsCallee := by
  cases e <;> simp [Admits, IsCallee, Stops]

/-- An operator can follow an expression whose operator does not bind less and that does not end in
a closure. -/
theorem admits_of_power {op : BinaryOp} : ∀ {e : Expr}, (∀ p ∈ e.power?, op.power ≤ p) →
    ¬ e.EndsInClosure → e.Shaped → e.Admits op.kind
  | .binary _ _ rhs _, hp, hclosure, hshaped => by
    have hle := hp _ rfl
    obtain ⟨-, hrhs, hshaped⟩ := hshaped
    exact ⟨.of_kind (Nat.lt_succ_of_le hle),
      admits_of_power (fun p h => Nat.le_trans hle (Nat.le_of_lt (hrhs p h))) hclosure hshaped⟩
  | .unary _ operand _, _, hclosure, hshaped => by
    refine ⟨.of_kind op.power_lt_prefixPower, admits_of_power ?_ hclosure hshaped.2⟩
    rw [hshaped.1]
    exact nofun
  | .closure .., _, hclosure, _ => (hclosure trivial).elim
  | .lit .., _, _, _ | .var _, _, _, _ | .call .., _, _, _ | .paren .., _, _, _
  | .block _, _, _, _ | .cond .., _, _, _ | .loop .., _, _, _ => trivial

/-- An expression that an operator can follow does not bind less. -/
theorem Admits.power_le {op : BinaryOp} {e : Expr} (h : e.Admits op.kind) :
    ∀ p ∈ e.power?, op.power ≤ p := by
  cases e with
  | binary =>
    rintro _ ⟨⟩
    exact Nat.le_of_lt_succ h.1.power_lt
  | _ => exact nofun

/-- An expression that an operator can follow does not end in a closure. -/
theorem Admits.not_endsInClosure {op : BinaryOp} :
    ∀ {e : Expr}, e.Admits op.kind → ¬ e.EndsInClosure
  | .binary .., h => h.2.not_endsInClosure
  | .unary .., h => h.2.not_endsInClosure
  | .closure .., h => fun _ => Nat.not_lt_zero _ h.1.power_lt
  | .lit .., _ | .var _, _ | .call .., _ | .paren .., _ | .block _, _ | .cond .., _
  | .loop .., _ => id

end Expr

end ClosureEnv.Syntax
