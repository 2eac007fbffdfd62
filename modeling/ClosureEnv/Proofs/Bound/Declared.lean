import ClosureEnv.Proofs.Bound.Scoped

/-!
# Where variables are declared

What an expression declares belongs to scopes below the one that it stands in (`Expr.Scoped.below`):
only blocks and loops declare anything, and those open scopes. The test of a loop is evaluated once
more for each turn, in no scope of its own; `ScopeTree.Tested` says which variables are declared
there.
-/

namespace ClosureEnv

/-- A variable belongs to a scope below `s`. -/
def ScopeTree.Below (t : ScopeTree) (s : ScopeId) (v : VarId) : Prop :=
  ∃ x, t.vars[v]? = some x ∧ Around t.scopes s x.scope

/-- A variable belongs to `s` or to a scope below it. -/
def ScopeTree.BelowEq (t : ScopeTree) (s : ScopeId) (v : VarId) : Prop :=
  ∃ x, t.vars[v]? = some x ∧ AroundEq t.scopes s x.scope

/-- Below is at or below. -/
theorem ScopeTree.Below.belowEq {t : ScopeTree} {s : ScopeId} {v : VarId} (h : t.Below s v) :
    t.BelowEq s v := by
  obtain ⟨x, hx, hs⟩ := h
  exact ⟨x, hx, .inr hs⟩

namespace Bound

/-! ## Scopes of what is declared -/

section

variable {t : ScopeTree} {holds : VarId → ClosureId → Prop}

/-- What belongs to a scope that opens right below `s`, or to one below it, is below `s`. -/
theorem Opens.below (hp : Preorder t.scopes) {s i : ScopeId} {kind : ScopeKind}
    (h : Opens t s i kind) {o : Option ScopeId} (hi : o = some i) {v : VarId}
    (hv : t.BelowEq (o.getD s) v) : t.Below s v := by
  subst hi
  obtain ⟨y, hy, hiy⟩ := hv
  exact ⟨y, hy, (around_parent hp h.parent).trans_eq hp hiy⟩

mutual

/-- What an expression declares belongs to scopes below. -/
theorem Expr.Scoped.below (hp : Preorder t.scopes) {s : ScopeId} {vis : VarId → Prop} :
    ∀ e : Expr, e.Scoped t holds s vis → ∀ v ∈ e.binds, t.Below s v
  | .lit _, _, _, hv | .var _, _, _, hv | .global _, _, _, hv | .fn _, _, _, hv
  | .closure _, _, _, hv => nomatch hv
  | .unary _ e, he, v, hv => Expr.Scoped.below hp e he v hv
  | .binary _ l r, he, v, hv =>
    (List.mem_append.mp hv).elim (Expr.Scoped.below hp l he.1 v) (Expr.Scoped.below hp r he.2 v)
  | .call f es, he, v, hv =>
    (List.mem_append.mp hv).elim (Expr.Scoped.below hp f he.1 v) (exprsScoped_below hp es he.2.1 v)
  | .block b, ⟨hb, _, hi, hopens, _⟩, v, hv => hopens.below hp hi (Block.Scoped.belowEq hp b hb v hv)
  | .cond e b n, ⟨he, hb, ⟨_, hi, hopens, _⟩, hn⟩, v, hv =>
    (List.mem_append.mp hv).elim (Expr.Scoped.below hp e he v) fun hv =>
      (List.mem_append.mp hv).elim (fun hv => hopens.below hp hi (Block.Scoped.belowEq hp b hb v hv))
        (optionScoped_below hp n hn v)
  | .loop e b, ⟨he, hb, _, hi, hopens⟩, v, hv =>
    (List.mem_append.mp hv).elim (Expr.Scoped.below hp e he v) fun hv =>
      hopens.below hp hi (Block.Scoped.belowEq hp b hb v hv)

/-- What an optional expression declares belongs to scopes below. -/
theorem optionScoped_below (hp : Preorder t.scopes) {s : ScopeId} {vis : VarId → Prop} :
    ∀ e : Option Expr, optionScoped t holds s vis e → ∀ v ∈ optionBinds e, t.Below s v
  | none, _, _, hv => nomatch hv
  | some e, he, v, hv => Expr.Scoped.below hp e he v hv

/-- What expressions declare belongs to scopes below. -/
theorem exprsScoped_below (hp : Preorder t.scopes) {s : ScopeId} {vis : VarId → Prop} :
    ∀ es : List Expr, exprsScoped t holds s vis es → ∀ v ∈ exprsBinds es, t.Below s v
  | [], _, _, hv => nomatch hv
  | e :: es, he, v, hv =>
    (List.mem_append.mp hv).elim (Expr.Scoped.below hp e he.1 v) (exprsScoped_below hp es he.2 v)

/-- What a block declares belongs to its scope or to scopes below. -/
theorem Block.Scoped.belowEq (hp : Preorder t.scopes) {s : ScopeId} {vis : VarId → Prop} :
    ∀ b : Block, b.Scoped t holds s vis → ∀ v ∈ b.binds, t.BelowEq (b.scope.getD s) v
  | .mk _ ss tail, hb, v, hv =>
    (List.mem_append.mp hv).elim (stmtsScoped_belowEq hp ss hb.1 v)
      fun hv => (optionScoped_below hp tail hb.2 v hv).belowEq

/-- What a statement declares belongs to the scope that it stands in or to scopes below. -/
theorem Stmt.Scoped.belowEq (hp : Preorder t.scopes) {s : ScopeId} {vis : VarId → Prop} :
    ∀ x : Stmt, x.Scoped t holds s vis → ∀ v ∈ x.binds, t.BelowEq s v
  | .bind _ e, ⟨he, ⟨y, hy, hys⟩, _⟩, v, hv =>
    (List.mem_append.mp hv).elim (fun hv => (Expr.Scoped.below hp e he v hv).belowEq)
      fun hv => ⟨y, List.mem_singleton.mp hv ▸ hy, .inl hys.symm⟩
  | .assign (.var _) e, he, v, hv | .assign (.global _) e, he, v, hv =>
    (Expr.Scoped.below hp e he.1 v hv).belowEq
  | .expr e, he, v, hv => (Expr.Scoped.below hp e he v hv).belowEq
  | .ret e, he, v, hv => (optionScoped_below hp e he.1 v hv).belowEq

/-- What statements declare belongs to the scope that they stand in or to scopes below. -/
theorem stmtsScoped_belowEq (hp : Preorder t.scopes) {s : ScopeId} {vis : VarId → Prop} :
    ∀ ss : List Stmt, stmtsScoped t holds s vis ss → ∀ v ∈ stmtsBinds ss, t.BelowEq s v
  | [], _, _, hv => nomatch hv
  | x :: xs, hs, v, hv =>
    (List.mem_append.mp hv).elim (Stmt.Scoped.belowEq hp x hs.1 v) (stmtsScoped_belowEq hp xs hs.2 v)

end

/-- What the body of a closure declares belongs to its scope or to scopes below. -/
theorem BodyScoped.belowEq (hp : Preorder t.scopes) {s : ScopeId} {vis : VarId → Prop} {e : Expr}
    (he : BodyScoped t holds s vis e) {v : VarId} (hv : v ∈ e.binds) : t.BelowEq s v := by
  unfold BodyScoped at he
  split at he
  · exact Block.Scoped.belowEq hp _ he v hv
  · exact (Expr.Scoped.below hp _ he v hv).belowEq

end

/-! ## Tests of loops -/

mutual

/-- The variables that loops in an expression declare in their tests; closures in it have bodies of
their own. -/
def Expr.tested : Expr → List VarId
  | .lit _ | .var _ | .global _ | .fn _ | .closure _ => []
  | .unary _ operand => operand.tested
  | .binary _ lhs rhs => lhs.tested ++ rhs.tested
  | .call callee args => callee.tested ++ exprsTested args
  | .block body => body.tested
  | .cond test yes no => test.tested ++ (yes.tested ++ optionTested no)
  | .loop test body => test.binds ++ (test.tested ++ body.tested)

/-- The variables that loops in an optional expression declare in their tests. -/
def optionTested : Option Expr → List VarId
  | none => []
  | some e => e.tested

/-- The variables that loops in expressions declare in their tests. -/
def exprsTested : List Expr → List VarId
  | [] => []
  | e :: es => e.tested ++ exprsTested es

/-- The variables that loops in a block declare in their tests. -/
def Block.tested : Block → List VarId
  | .mk _ ss tail => stmtsTested ss ++ optionTested tail

/-- The variables that loops in a statement declare in their tests. -/
def Stmt.tested : Stmt → List VarId
  | .bind _ value | .assign _ value | .expr value => value.tested
  | .ret value => optionTested value

/-- The variables that loops in statements declare in their tests. -/
def stmtsTested : List Stmt → List VarId
  | [] => []
  | s :: ss => s.tested ++ stmtsTested ss

end

end Bound

/-- A variable is declared in the test of a loop. -/
def ScopeTree.Tested (t : ScopeTree) (v : VarId) : Prop :=
  (∃ f ∈ t.fns, v ∈ f.body.tested) ∨ (∃ k ∈ t.closures, v ∈ k.body.tested) ∨
    ∃ g ∈ t.globals, v ∈ g.init.tested

end ClosureEnv
