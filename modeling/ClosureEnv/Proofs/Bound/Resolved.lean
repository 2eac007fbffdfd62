import ClosureEnv.Binding.Module
import ClosureEnv.Proofs.Scope.Chain

/-!
# Resolved names

What a bound body has to do with the source that it is made from. `ScopeTree.Resolves` says what a
name stands for: the latest declaration of the innermost scope around the mention that has declared
the name so far, where variables are numbered in the order of their declarations. The judgements
below go through a source and its bound form side by side, with the scope that both stand in and the
number of variables declared before and after; at each mention they ask for what the name stands for
there.
-/

namespace ClosureEnv

namespace ScopeTree

/-- Among the first `n` variables is one of a name that is declared in a scope or around it. -/
def Offers (t : ScopeTree) (n : Nat) (s : ScopeId) (name : String) (v : VarId) (x : Variable) :
    Prop :=
  v < n ∧ t.vars[v]? = some x ∧ x.name = name ∧ AroundEq t.scopes x.scope s

/-- The variable that a name stands for in a scope, after `n` declarations: the innermost of those
that are offered, and the latest in its scope. -/
def Resolves (t : ScopeTree) (n : Nat) (s : ScopeId) (name : String) (v : VarId) : Prop :=
  ∃ x, t.Offers n s name v x ∧ ∀ w y, t.Offers n s name w y →
    AroundEq t.scopes y.scope x.scope ∧ (y.scope = x.scope → w ≤ v)

/-- A name stands for no variable in a scope, after `n` declarations. -/
def Unresolved (t : ScopeTree) (n : Nat) (s : ScopeId) (name : String) : Prop :=
  ∀ v x, ¬ t.Offers n s name v x

end ScopeTree

/-- The module has a global of a name. -/
def Syntax.Module.HasGlobal (m : Syntax.Module) (name : String) : Prop :=
  ∃ d ∈ Binding.globals m.items, d.name.text = name

/-- The module has a function of a name. -/
def Syntax.Module.HasFn (m : Syntax.Module) (name : String) : Prop :=
  ∃ d ∈ Binding.functions m.items, d.name.text = name

namespace Bound

variable (t : ScopeTree) (m : Syntax.Module)

/-- What a name is bound to: a variable, a global if there is none, a function if there is
neither. -/
inductive NameBinds (s : ScopeId) (n : Nat) (name : String) : Expr → Prop
  | var {v : VarId} (h : t.Resolves n s name v) : NameBinds s n name (.var v)
  | global (h : t.Unresolved n s name) (hg : m.HasGlobal name) : NameBinds s n name (.global name)
  | fn (h : t.Unresolved n s name) (hg : ¬ m.HasGlobal name) (hf : m.HasFn name) :
    NameBinds s n name (.fn name)

/-- What the target of an assignment is bound to: a variable, or a global if there is none. -/
inductive TargetBinds (s : ScopeId) (n : Nat) (name : String) : Target → Prop
  | var {v : VarId} (h : t.Resolves n s name v) : TargetBinds s n name (.var v)
  | global (h : t.Unresolved n s name) (hg : m.HasGlobal name) : TargetBinds s n name (.global name)

/-- The next variable is declared in a scope under a name. -/
def Declares (s : ScopeId) (n : Nat) (name : String) (isParam : Bool) : Prop :=
  ∃ x, t.vars[n]? = some x ∧ x.name = name ∧ x.scope = s ∧ x.isParam = isParam

/-- Parameters are the next variables, and declared in a scope. -/
inductive ParamsBind (s : ScopeId) : Nat → List Syntax.Param → List VarId → Prop
  | nil (n : Nat) : ParamsBind s n [] []
  | cons {n : Nat} {p : Syntax.Param} {ps : List Syntax.Param} {vs : List VarId}
    (h : Declares t s n p.name.text true) (hs : ParamsBind s (n + 1) ps vs) :
    ParamsBind s n (p :: ps) (n :: vs)

mutual

/-- An expression in a scope, with the number of variables before and after it. -/
inductive ExprBinds : ScopeId → Nat → Syntax.Expr → Nat → Expr → Prop
  | lit {s : ScopeId} {n : Nat} (value : Syntax.Literal) (span : Syntax.Span) :
    ExprBinds s n (.lit value span) n (.lit value)
  | name {s : ScopeId} {n : Nat} {name : Syntax.Ident} {x : Expr}
    (h : NameBinds t m s n name.text x) : ExprBinds s n (.var name) n x
  | paren {s : ScopeId} {n n' : Nat} {e : Syntax.Expr} {x : Expr} {span : Syntax.Span}
    (h : ExprBinds s n e n' x) : ExprBinds s n (.paren e span) n' x
  | unary {s : ScopeId} {n n' : Nat} {op : Syntax.UnaryOp} {e : Syntax.Expr} {x : Expr}
    {span : Syntax.Span} (h : ExprBinds s n e n' x) :
    ExprBinds s n (.unary op e span) n' (.unary op x)
  | binary {s : ScopeId} {n n₁ n' : Nat} {op : Syntax.BinaryOp} {l r : Syntax.Expr} {x y : Expr}
    {span : Syntax.Span} (hl : ExprBinds s n l n₁ x) (hr : ExprBinds s n₁ r n' y) :
    ExprBinds s n (.binary op l r span) n' (.binary op x y)
  | call {s : ScopeId} {n n₁ n' : Nat} {f : Syntax.Expr} {es : List Syntax.Expr} {x : Expr}
    {xs : List Expr} {span : Syntax.Span} (hf : ExprBinds s n f n₁ x)
    (hs : ExprsBind s n₁ es n' xs) : ExprBinds s n (.call f es span) n' (.call x xs)
  | block {s : ScopeId} {n n' : Nat} {body : Syntax.Block} {x : Block}
    (h : ScopedBinds s n body n' x) : ExprBinds s n (.block body) n' (.block x)
  | cond {s : ScopeId} {n n₁ n₂ n' : Nat} {test : Syntax.Expr} {yes : Syntax.Block}
    {no : Option Syntax.Expr} {x : Expr} {y : Block} {z : Option Expr} {span : Syntax.Span}
    (ht : ExprBinds s n test n₁ x) (hy : ScopedBinds s n₁ yes n₂ y)
    (hn : OptionBinds s n₂ no n' z) : ExprBinds s n (.cond test yes no span) n' (.cond x y z)
  | loop {s : ScopeId} {n n₁ n' : Nat} {test : Syntax.Expr} {body : Syntax.Block} {x : Expr}
    {y : Block} {span : Syntax.Span} (ht : ExprBinds s n test n₁ x)
    (hb : ScopedBinds s n₁ body n' y) : ExprBinds s n (.loop test body span) n' (.loop x y)
  | closure {s : ScopeId} {n n' : Nat} {params : List Syntax.Param} {body : Syntax.Expr}
    {span : Syntax.Span} {c : ClosureId} {k : Closure} (hk : t.closures[c]? = some k)
    (hd : k.declaredIn = s) (hs : parentIn? t.scopes k.scope = some s)
    (hp : ParamsBind t k.scope n params k.params)
    (hb : InnerBinds k.scope (n + params.length) body n' k.body) :
    ExprBinds s n (.closure params body span) n' (.closure c)

/-- The body of a closure: a block opens no scope of its own there. -/
inductive InnerBinds : ScopeId → Nat → Syntax.Expr → Nat → Expr → Prop
  | block {s : ScopeId} {n n' : Nat} {body : Syntax.Block} {x : Block}
    (h : BlockBinds s n body n' x) : InnerBinds s n (.block body) n' (.block x)
  | expr {s : ScopeId} {n n' : Nat} {e : Syntax.Expr} {x : Expr} (he : ∀ body, e ≠ .block body)
    (h : ExprBinds s n e n' x) : InnerBinds s n e n' x

/-- An optional expression. -/
inductive OptionBinds : ScopeId → Nat → Option Syntax.Expr → Nat → Option Expr → Prop
  | none (s : ScopeId) (n : Nat) : OptionBinds s n none n none
  | some {s : ScopeId} {n n' : Nat} {e : Syntax.Expr} {x : Expr} (h : ExprBinds s n e n' x) :
    OptionBinds s n (some e) n' (some x)

/-- Expressions, from the left to the right. -/
inductive ExprsBind : ScopeId → Nat → List Syntax.Expr → Nat → List Expr → Prop
  | nil (s : ScopeId) (n : Nat) : ExprsBind s n [] n []
  | cons {s : ScopeId} {n n₁ n' : Nat} {e : Syntax.Expr} {es : List Syntax.Expr} {x : Expr}
    {xs : List Expr} (h : ExprBinds s n e n₁ x) (hs : ExprsBind s n₁ es n' xs) :
    ExprsBind s n (e :: es) n' (x :: xs)

/-- A block that opens a scope right below. -/
inductive ScopedBinds : ScopeId → Nat → Syntax.Block → Nat → Block → Prop
  | mk {s i : ScopeId} {n n₁ n' : Nat} {ss : List Syntax.Stmt} {tail : Option Syntax.Expr}
    {xs : List Stmt} {y : Option Expr} {span : Syntax.Span}
    (hi : parentIn? t.scopes i = some s) (hs : StmtsBind i n ss n₁ xs)
    (ht : OptionBinds i n₁ tail n' y) :
    ScopedBinds s n (.mk ss tail span) n' (.mk (some i) xs y)

/-- A block that declares into the scope that it stands in. -/
inductive BlockBinds : ScopeId → Nat → Syntax.Block → Nat → Block → Prop
  | mk {s : ScopeId} {n n₁ n' : Nat} {ss : List Syntax.Stmt} {tail : Option Syntax.Expr}
    {xs : List Stmt} {y : Option Expr} {span : Syntax.Span} (hs : StmtsBind s n ss n₁ xs)
    (ht : OptionBinds s n₁ tail n' y) : BlockBinds s n (.mk ss tail span) n' (.mk none xs y)

/-- Statements, one after the other. -/
inductive StmtsBind : ScopeId → Nat → List Syntax.Stmt → Nat → List Stmt → Prop
  | nil (s : ScopeId) (n : Nat) : StmtsBind s n [] n []
  | cons {s : ScopeId} {n n₁ n' : Nat} {a : Syntax.Stmt} {ss : List Syntax.Stmt} {x : Stmt}
    {xs : List Stmt} (h : StmtBinds s n a n₁ x) (hs : StmtsBind s n₁ ss n' xs) :
    StmtsBind s n (a :: ss) n' (x :: xs)

/-- A statement. The initial value of a variable comes before the variable, and the value of an
assignment before its target. -/
inductive StmtBinds : ScopeId → Nat → Syntax.Stmt → Nat → Stmt → Prop
  | bind {s : ScopeId} {n n' : Nat} {isMut : Bool} {name : Syntax.Ident}
    {stated : Option Syntax.TypeExpr} {e : Syntax.Expr} {span : Syntax.Span} {x : Expr}
    (h : ExprBinds s n e n' x) (hd : Declares t s n' name.text false) :
    StmtBinds s n (.bind isMut name stated e span) (n' + 1) (.bind n' x)
  | assign {s : ScopeId} {n n' : Nat} {name : Syntax.Ident} {e : Syntax.Expr} {span : Syntax.Span}
    {x : Expr} {target : Target} (h : ExprBinds s n e n' x)
    (ht : TargetBinds t m s n' name.text target) :
    StmtBinds s n (.assign name e span) n' (.assign target x)
  | expr {s : ScopeId} {n n' : Nat} {e : Syntax.Expr} {span : Syntax.Span} {x : Expr}
    (h : ExprBinds s n e n' x) : StmtBinds s n (.expr e span) n' (.expr x)
  | ret {s : ScopeId} {n n' : Nat} {e : Option Syntax.Expr} {span : Syntax.Span} {x : Option Expr}
    (h : OptionBinds s n e n' x) : StmtBinds s n (.ret e span) n' (.ret x)

end

/-! ## Items -/

/-- A function, with the number of variables before and after it. -/
structure FnBinds (n : Nat) (d : Syntax.FnDecl) (n' : Nat) (f : Function) : Prop where
  name : f.name = d.name.text
  root : parentIn? t.scopes f.scope = none
  params : ParamsBind t f.scope n d.params f.params
  body : BlockBinds t m f.scope (n + d.params.length) d.body n' f.body

/-- Functions, in their order. -/
inductive FnsBind : Nat → List Syntax.FnDecl → Nat → List Function → Prop
  | nil (n : Nat) : FnsBind n [] n []
  | cons {n n₁ n' : Nat} {d : Syntax.FnDecl} {ds : List Syntax.FnDecl} {f : Function}
    {fs : List Function} (h : FnBinds t m n d n₁ f) (hs : FnsBind n₁ ds n' fs) :
    FnsBind n (d :: ds) n' (f :: fs)

/-- Globals, in their order; their initial values stand in one scope. -/
inductive GlobalsBind (s : ScopeId) : Nat → List Syntax.LetDecl → Nat → List Global → Prop
  | nil (n : Nat) : GlobalsBind s n [] n []
  | cons {n n₁ n' : Nat} {d : Syntax.LetDecl} {ds : List Syntax.LetDecl} {g : Global}
    {gs : List Global} (hn : g.name = d.name.text) (h : ExprBinds t m s n d.value n₁ g.init)
    (hs : GlobalsBind s n₁ ds n' gs) : GlobalsBind s n (d :: ds) n' (g :: gs)

/-- A module: its functions, and then its globals, which share one function of their own. All
variables are declared on the way. -/
structure ModuleBinds : Prop where
  items : ∃ n fs rest s, FnsBind t m 0 (Binding.functions m.items) n fs ∧
    t.fns.toList = fs ++ rest ∧
    GlobalsBind t m s n (Binding.globals m.items) t.vars.size t.globals.toList ∧
    (Binding.globals m.items = [] ∧ rest = [] ∨
      ∃ f, rest = [f] ∧ f.scope = s ∧ parentIn? t.scopes s = none)

end Bound

end ClosureEnv
