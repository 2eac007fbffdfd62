import ClosureEnv.Proofs.Bound.Scoped

/-!
# Mentions of variables

The local variables that a body mentions, each with the scope of the mention, in the order in which
the body comes to them. In a well-scoped body every one of them is declared in the scope of the
mention or around it (`Expr.Scoped.inScope`).
-/

namespace ClosureEnv

/-- A variable is declared in a scope or around it. -/
def ScopeTree.InScope (t : ScopeTree) (s : ScopeId) (v : VarId) : Prop :=
  ∃ x, t.vars[v]? = some x ∧ AroundEq t.scopes x.scope s

namespace Bound

mutual

/-- The local variables that an expression in scope `s` reads or assigns, each with the scope that
it does so in; closures in it have bodies of their own. -/
def Expr.mentions (s : ScopeId) : Expr → List (ScopeId × VarId)
  | .lit _ | .global _ | .fn _ | .closure _ => []
  | .var v => [(s, v)]
  | .unary _ operand => operand.mentions s
  | .binary _ lhs rhs => lhs.mentions s ++ rhs.mentions s
  | .call callee args => callee.mentions s ++ exprsMentions s args
  | .block body => body.mentions s
  | .cond test yes no => test.mentions s ++ (yes.mentions s ++ optionMentions s no)
  | .loop test body => test.mentions s ++ body.mentions s

/-- The mentions in an optional expression. -/
def optionMentions (s : ScopeId) : Option Expr → List (ScopeId × VarId)
  | none => []
  | some e => e.mentions s

/-- The mentions in expressions. -/
def exprsMentions (s : ScopeId) : List Expr → List (ScopeId × VarId)
  | [] => []
  | e :: es => e.mentions s ++ exprsMentions s es

/-- The mentions in a block, in the scope that it opens if it opens one. -/
def Block.mentions (s : ScopeId) : Block → List (ScopeId × VarId)
  | .mk scope ss tail => stmtsMentions (scope.getD s) ss ++ optionMentions (scope.getD s) tail

/-- The mentions in a statement; an assignment comes to its value before its target. -/
def Stmt.mentions (s : ScopeId) : Stmt → List (ScopeId × VarId)
  | .bind _ value | .assign (.global _) value | .expr value => value.mentions s
  | .assign (.var v) value => value.mentions s ++ [(s, v)]
  | .ret value => optionMentions s value

/-- The mentions in statements. -/
def stmtsMentions (s : ScopeId) : List Stmt → List (ScopeId × VarId)
  | [] => []
  | x :: xs => x.mentions s ++ stmtsMentions s xs

end

variable {t : ScopeTree} {holds : VarId → ClosureId → Prop}

/-- What is in a scope is in a scope that opens right below. -/
theorem Opens.inScope_getD (hp : Preorder t.scopes) {s i : ScopeId} {kind : ScopeKind}
    (h : Opens t s i kind) {o : Option ScopeId} (ho : o = some i) {vis : VarId → Prop}
    (hvis : ∀ v, vis v → t.InScope s v) (v : VarId) (hv : vis v) : t.InScope (o.getD s) v := by
  subst ho
  obtain ⟨x, hx, hxs⟩ := hvis v hv
  exact ⟨x, hx, .inr (around_of_parent hp h.parent hxs)⟩

/-- What statements in a scope make visible is in it. -/
theorem inScope_of_after {s : ScopeId} {vis : VarId → Prop} (ss : List Stmt)
    (h : stmtsScoped t holds s vis ss) (hvis : ∀ v, vis v → t.InScope s v) (v : VarId) :
    after vis ss v → t.InScope s v := by
  rintro (hv | hv)
  · exact hvis v hv
  · obtain ⟨x, hx, hxs⟩ := scope_of_declared h hv
    exact ⟨x, hx, .inl hxs⟩

mutual

/-- What an expression mentions is in the scope of the mention. -/
theorem Expr.Scoped.inScope (hp : Preorder t.scopes) {s : ScopeId} {vis : VarId → Prop}
    (hvis : ∀ v, vis v → t.InScope s v) : ∀ e : Expr, e.Scoped t holds s vis →
      ∀ m ∈ e.mentions s, t.InScope m.1 m.2
  | .lit _, _, _, hm | .global _, _, _, hm | .fn _, _, _, hm | .closure _, _, _, hm => nomatch hm
  | .var v, he, _, hm => List.mem_singleton.mp hm ▸ hvis v he
  | .unary _ e, he, m, hm => Expr.Scoped.inScope hp hvis e he m hm
  | .binary _ l r, he, m, hm =>
    (List.mem_append.mp hm).elim (Expr.Scoped.inScope hp hvis l he.1 m)
      (Expr.Scoped.inScope hp hvis r he.2 m)
  | .call f es, he, m, hm =>
    (List.mem_append.mp hm).elim (Expr.Scoped.inScope hp hvis f he.1 m)
      (exprsScoped_inScope hp hvis es he.2.1 m)
  | .block b, ⟨hb, _, hi, hopens, _⟩, m, hm =>
    Block.Scoped.inScope hp b (hopens.inScope_getD hp hi hvis) hb m hm
  | .cond e b n, ⟨he, hb, ⟨_, hi, hopens, _⟩, hn⟩, m, hm =>
    (List.mem_append.mp hm).elim (Expr.Scoped.inScope hp hvis e he m) fun hm =>
      (List.mem_append.mp hm).elim
        (Block.Scoped.inScope hp b (hopens.inScope_getD hp hi hvis) hb m)
        (optionScoped_inScope hp hvis n hn m)
  | .loop e b, ⟨he, hb, _, hi, hopens⟩, m, hm =>
    (List.mem_append.mp hm).elim (Expr.Scoped.inScope hp hvis e he m)
      (Block.Scoped.inScope hp b (hopens.inScope_getD hp hi hvis) hb m)

/-- What an optional expression mentions is in the scope of the mention. -/
theorem optionScoped_inScope (hp : Preorder t.scopes) {s : ScopeId} {vis : VarId → Prop}
    (hvis : ∀ v, vis v → t.InScope s v) : ∀ e : Option Expr, optionScoped t holds s vis e →
      ∀ m ∈ optionMentions s e, t.InScope m.1 m.2
  | none, _, _, hm => nomatch hm
  | some e, he, m, hm => Expr.Scoped.inScope hp hvis e he m hm

/-- What expressions mention is in the scope of the mention. -/
theorem exprsScoped_inScope (hp : Preorder t.scopes) {s : ScopeId} {vis : VarId → Prop}
    (hvis : ∀ v, vis v → t.InScope s v) : ∀ es : List Expr, exprsScoped t holds s vis es →
      ∀ m ∈ exprsMentions s es, t.InScope m.1 m.2
  | [], _, _, hm => nomatch hm
  | e :: es, he, m, hm =>
    (List.mem_append.mp hm).elim (Expr.Scoped.inScope hp hvis e he.1 m)
      (exprsScoped_inScope hp hvis es he.2 m)

/-- What a block mentions is in the scope of the mention, given what is in the scope of the
block. -/
theorem Block.Scoped.inScope (hp : Preorder t.scopes) {s : ScopeId} {vis : VarId → Prop} :
    ∀ b : Block, (∀ v, vis v → t.InScope (b.scope.getD s) v) → b.Scoped t holds s vis →
      ∀ m ∈ b.mentions s, t.InScope m.1 m.2
  | .mk _ ss tail, hvis, hb, m, hm =>
    (List.mem_append.mp hm).elim (stmtsScoped_inScope hp hvis ss hb.1 m)
      (optionScoped_inScope hp (inScope_of_after _ hb.1 hvis) tail hb.2 m)

/-- What a statement mentions is in the scope of the mention. -/
theorem Stmt.Scoped.inScope (hp : Preorder t.scopes) {s : ScopeId} {vis : VarId → Prop}
    (hvis : ∀ v, vis v → t.InScope s v) : ∀ x : Stmt, x.Scoped t holds s vis →
      ∀ m ∈ x.mentions s, t.InScope m.1 m.2
  | .bind _ e, hx, m, hm => Expr.Scoped.inScope hp hvis e hx.1 m hm
  | .assign (.var v) e, hx, m, hm =>
    (List.mem_append.mp hm).elim (Expr.Scoped.inScope hp hvis e hx.1 m) fun hm =>
      List.mem_singleton.mp hm ▸ hvis v hx.2.1
  | .assign (.global _) e, hx, m, hm => Expr.Scoped.inScope hp hvis e hx.1 m hm
  | .expr e, hx, m, hm => Expr.Scoped.inScope hp hvis e hx m hm
  | .ret e, hx, m, hm => optionScoped_inScope hp hvis e hx.1 m hm

/-- What statements mention is in the scope of the mention. -/
theorem stmtsScoped_inScope (hp : Preorder t.scopes) {s : ScopeId} {vis : VarId → Prop}
    (hvis : ∀ v, vis v → t.InScope s v) : ∀ ss : List Stmt, stmtsScoped t holds s vis ss →
      ∀ m ∈ stmtsMentions s ss, t.InScope m.1 m.2
  | [], _, _, hm => nomatch hm
  | x :: xs, hs, m, hm =>
    (List.mem_append.mp hm).elim (Stmt.Scoped.inScope hp hvis x hs.1 m)
      (stmtsScoped_inScope hp
        (inScope_of_after [x] ⟨hs.1, trivial⟩ hvis) xs hs.2 m)

end

/-- What the body of a closure mentions is in the scope of the mention. -/
theorem BodyScoped.inScope (hp : Preorder t.scopes) {s : ScopeId} {vis : VarId → Prop} {e : Expr}
    (hvis : ∀ v, vis v → t.InScope s v) (he : BodyScoped t holds s vis e) :
    ∀ m ∈ e.mentions s, t.InScope m.1 m.2 := by
  unfold BodyScoped at he
  split at he
  · exact Block.Scoped.inScope hp _ hvis he
  · exact Expr.Scoped.inScope hp hvis _ he

end Bound

end ClosureEnv
