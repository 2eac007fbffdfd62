import ClosureEnv.Binding.State
import ClosureEnv.Proofs.Scope.Chain

/-!
# Well-scoped bodies and well-named trees

What binding promises of the bodies of a unit. `Expr.Scoped` says that an expression that stands in
a scope mentions visible variables only, that its blocks open scopes right below, that its closure
literals see all that they need, and that values which leave a scope are accounted for: whatever a
variable may hold is among what `holds` says of it, and a closure that may outlive its scope is
marked as escaping. `ScopeTree.WellBound` gathers this for all bodies of a tree, with the shape of
the tree itself.

`ScopeTree.WellNamed` is what binding promises of the names: no two items have one, keys tell scopes
apart and ordinals tell closures of one function apart. Names of the source are plain, which keeps
them apart from names that are made.
-/

namespace ClosureEnv

open Binding (Source)

namespace Bound

mutual

/-- What the value of an expression may come from. -/
def Expr.sources : Expr → List Source
  | .var v => [.var v]
  | .closure c => [.closure c]
  | .block body => body.sources
  | .cond _ yes no => yes.sources ++ optionSources no
  | .lit _ | .global _ | .fn _ | .unary .. | .binary .. | .call .. | .loop .. => []

/-- What the value of a block may come from. -/
def Block.sources : Block → List Source
  | .mk _ _ tail => optionSources tail

/-- What an optional value may come from. -/
def optionSources : Option Expr → List Source
  | none => []
  | some e => e.sources

end

mutual

/-- The variables that an expression declares, in the order of the source; closures in it declare
theirs in bodies of their own. -/
def Expr.binds : Expr → List VarId
  | .lit _ | .var _ | .global _ | .fn _ | .closure _ => []
  | .unary _ operand => operand.binds
  | .binary _ lhs rhs => lhs.binds ++ rhs.binds
  | .call callee args => callee.binds ++ exprsBinds args
  | .block body => body.binds
  | .cond test yes no => test.binds ++ (yes.binds ++ optionBinds no)
  | .loop test body => test.binds ++ body.binds

/-- The variables that an optional expression declares. -/
def optionBinds : Option Expr → List VarId
  | none => []
  | some e => e.binds

/-- The variables that expressions declare. -/
def exprsBinds : List Expr → List VarId
  | [] => []
  | e :: es => e.binds ++ exprsBinds es

/-- The variables that a block declares. -/
def Block.binds : Block → List VarId
  | .mk _ ss tail => stmtsBinds ss ++ optionBinds tail

/-- The variables that a statement declares. -/
def Stmt.binds : Stmt → List VarId
  | .bind v value => value.binds ++ [v]
  | .assign _ value | .expr value => value.binds
  | .ret value => optionBinds value

/-- The variables that statements declare. -/
def stmtsBinds : List Stmt → List VarId
  | [] => []
  | s :: ss => s.binds ++ stmtsBinds ss

end

/-- The variable that a statement makes visible to those after it. -/
def Stmt.declared : Stmt → List VarId
  | .bind v _ => [v]
  | .assign .. | .expr _ | .ret _ => []

/-- What is visible after some statements. -/
def after (vis : VarId → Prop) (ss : List Stmt) : VarId → Prop :=
  fun v => vis v ∨ v ∈ ss.flatMap Stmt.declared

end Bound

/-- A closure is marked as one that may outlive its scope. -/
def ScopeTree.Escaping (t : ScopeTree) (c : ClosureId) : Prop :=
  ∃ k, t.closures[c]? = some k ∧ k.escapes = true

/-- A closure needs a variable from outside when it or a closure nested in it mentions it. -/
def ScopeTree.Needs (t : ScopeTree) (c : ClosureId) (v : VarId) : Prop :=
  ∃ outer inner x, t.closures[c]? = some outer ∧ inner ∈ t.closures ∧ t.vars[v]? = some x ∧
    AroundEq t.scopes outer.scope inner.scope ∧ v ∈ inner.freeVars ∧
    ¬ AroundEq t.scopes outer.scope x.scope

/-- The closures that some sources may stand for, given what variables may hold. -/
def Reaches (holds : VarId → ClosureId → Prop) (sources : List Source) (c : ClosureId) : Prop :=
  .closure c ∈ sources ∨ ∃ v, .var v ∈ sources ∧ holds v c

namespace Bound

variable (t : ScopeTree) (holds : VarId → ClosureId → Prop)

/-- Whatever some sources stand for escapes. -/
def AllEscape (sources : List Source) : Prop :=
  ∀ c, Reaches holds sources c → t.Escaping c

/-- Whatever some sources stand for escapes if it is declared at or below a scope. -/
def MayLeave (s : ScopeId) (sources : List Source) : Prop :=
  ∀ c k, Reaches holds sources c → t.closures[c]? = some k →
    AroundEq t.scopes s k.declaredIn → t.Escaping c

/-- A variable may hold whatever some sources stand for. -/
def MayHold (v : VarId) (sources : List Source) : Prop :=
  ∀ c, Reaches holds sources c → holds v c

/-- Whatever some sources stand for escapes if it is declared below the scope of a variable. -/
def MayRise (v : VarId) (sources : List Source) : Prop :=
  ∀ c k x, Reaches holds sources c → t.closures[c]? = some k → t.vars[v]? = some x →
    Around t.scopes x.scope k.declaredIn → t.Escaping c

/-- A scope of some kind opens right below another. -/
def Opens (s i : ScopeId) (kind : ScopeKind) : Prop :=
  ∃ x, t.scopes[i]? = some x ∧ x.kind = kind ∧ x.parent = some s

variable {t} in
/-- A scope that opens has the other as its parent. -/
theorem Opens.parent {s i : ScopeId} {kind : ScopeKind} (h : Opens t s i kind) :
    parentIn? t.scopes i = some s := by
  obtain ⟨x, hx, -, hpar⟩ := h
  exact (parentIn?_of_scope hx).trans hpar

mutual

/-- An expression that stands in scope `s`, where `vis` holds of the visible variables. -/
def Expr.Scoped (s : ScopeId) (vis : VarId → Prop) : Expr → Prop
  | .lit _ | .global _ => True
  | .var v => vis v
  | .fn name => ∃ f ∈ t.fns, f.name = name ∧ f.isSynthetic = false
  | .unary _ operand => operand.Scoped s vis
  | .binary _ lhs rhs => lhs.Scoped s vis ∧ rhs.Scoped s vis
  | .call callee args =>
    callee.Scoped s vis ∧ exprsScoped s vis args ∧ ∀ a ∈ args, AllEscape t holds a.sources
  | .block body =>
    body.Scoped s vis ∧
      ∃ i, body.scope = some i ∧ Opens t s i .block ∧ MayLeave t holds i body.sources
  | .cond test yes no =>
    test.Scoped s vis ∧ yes.Scoped s vis ∧
      (∃ i, yes.scope = some i ∧ Opens t s i .block ∧ MayLeave t holds i yes.sources) ∧
      optionScoped s vis no
  | .loop test body =>
    test.Scoped s vis ∧ body.Scoped s vis ∧ ∃ i, body.scope = some i ∧ Opens t s i .loop
  | .closure c =>
    ∃ k, t.closures[c]? = some k ∧ k.declaredIn = s ∧ ∀ v, t.Needs c v → vis v

/-- An optional expression. -/
def optionScoped (s : ScopeId) (vis : VarId → Prop) : Option Expr → Prop
  | none => True
  | some e => e.Scoped s vis

/-- Expressions. -/
def exprsScoped (s : ScopeId) (vis : VarId → Prop) : List Expr → Prop
  | [] => True
  | e :: es => e.Scoped s vis ∧ exprsScoped s vis es

/-- A block, in the scope that it opens if it opens one. -/
def Block.Scoped (s : ScopeId) (vis : VarId → Prop) : Block → Prop
  | .mk scope ss tail =>
    stmtsScoped (scope.getD s) vis ss ∧ optionScoped (scope.getD s) (after vis ss) tail

/-- A statement. -/
def Stmt.Scoped (s : ScopeId) (vis : VarId → Prop) : Stmt → Prop
  | .bind v value =>
    value.Scoped s vis ∧ (∃ x, t.vars[v]? = some x ∧ x.scope = s) ∧ MayHold holds v value.sources
  | .assign (.var v) value =>
    value.Scoped s vis ∧ vis v ∧ MayHold holds v value.sources ∧ MayRise t holds v value.sources
  | .assign (.global _) value => value.Scoped s vis ∧ AllEscape t holds value.sources
  | .expr value => value.Scoped s vis
  | .ret value => optionScoped s vis value ∧ AllEscape t holds (optionSources value)

/-- Statements, each of which sees what those before it declare. -/
def stmtsScoped (s : ScopeId) (vis : VarId → Prop) : List Stmt → Prop
  | [] => True
  | x :: xs => x.Scoped s vis ∧ stmtsScoped s (after vis [x]) xs

end

/-- The body of a closure is an expression, or a block whose locals belong to the scope of the
closure. -/
def BodyScoped (s : ScopeId) (vis : VarId → Prop) : Expr → Prop
  | .block (.mk none ss tail) => Block.Scoped t holds s vis (.mk none ss tail)
  | e => e.Scoped t holds s vis

section

variable {t holds}

/-- More is visible after statements when more is visible before. -/
theorem after_mono {vis vis' : VarId → Prop} (h : ∀ v, vis v → vis' v) (ss : List Stmt) (v : VarId) :
    after vis ss v → after vis' ss v :=
  Or.imp (h v) id

/-- Nothing more is visible without statements. -/
theorem after_nil (vis : VarId → Prop) : after vis [] = vis := by
  funext v
  simp [after]

/-- What is visible after a declaration. -/
theorem after_bind (vis : VarId → Prop) (v : VarId) (e : Expr) :
    after vis [.bind v e] = fun w => vis w ∨ w = v := by
  funext w
  simp [after, Stmt.declared]

/-- Nothing more is visible after a statement that is no declaration. -/
theorem after_of_declared {vis : VarId → Prop} {x : Stmt} (hx : x.declared = []) :
    after vis [x] = vis := by
  funext v
  simp [after, hx]

/-- What is visible after a statement and some more. -/
theorem after_cons (vis : VarId → Prop) (x : Stmt) (xs : List Stmt) :
    after vis (x :: xs) = after (after vis [x]) xs := by
  funext v
  simp [after, or_assoc]

mutual

/-- An expression stays well-scoped when more is visible. -/
theorem Expr.Scoped.mono {s : ScopeId} {vis vis' : VarId → Prop} (h : ∀ v, vis v → vis' v) :
    ∀ e : Expr, e.Scoped t holds s vis → e.Scoped t holds s vis'
  | .lit _, _ | .global _, _ => trivial
  | .var v, he => h v he
  | .fn _, he => he
  | .unary _ x, he => Expr.Scoped.mono h x he
  | .binary _ l r, he => ⟨Expr.Scoped.mono h l he.1, Expr.Scoped.mono h r he.2⟩
  | .call f xs, he => ⟨Expr.Scoped.mono h f he.1, exprsScoped_mono h xs he.2.1, he.2.2⟩
  | .block b, he => ⟨Block.Scoped.mono h b he.1, he.2⟩
  | .cond c y n, he => ⟨Expr.Scoped.mono h c he.1, Block.Scoped.mono h y he.2.1, he.2.2.1,
      optionScoped_mono h n he.2.2.2⟩
  | .loop c b, he => ⟨Expr.Scoped.mono h c he.1, Block.Scoped.mono h b he.2.1, he.2.2⟩
  | .closure _, ⟨k, hk, hd, hv⟩ => ⟨k, hk, hd, fun v hn => h v (hv v hn)⟩

/-- An optional expression stays well-scoped when more is visible. -/
theorem optionScoped_mono {s : ScopeId} {vis vis' : VarId → Prop} (h : ∀ v, vis v → vis' v) :
    ∀ e : Option Expr, optionScoped t holds s vis e → optionScoped t holds s vis' e
  | none, _ => trivial
  | some e, he => Expr.Scoped.mono h e he

/-- Expressions stay well-scoped when more is visible. -/
theorem exprsScoped_mono {s : ScopeId} {vis vis' : VarId → Prop} (h : ∀ v, vis v → vis' v) :
    ∀ es : List Expr, exprsScoped t holds s vis es → exprsScoped t holds s vis' es
  | [], _ => trivial
  | e :: es, he => ⟨Expr.Scoped.mono h e he.1, exprsScoped_mono h es he.2⟩

/-- A block stays well-scoped when more is visible. -/
theorem Block.Scoped.mono {s : ScopeId} {vis vis' : VarId → Prop} (h : ∀ v, vis v → vis' v) :
    ∀ b : Block, b.Scoped t holds s vis → b.Scoped t holds s vis'
  | .mk _ ss tail, hb =>
    ⟨stmtsScoped_mono h ss hb.1, optionScoped_mono (after_mono h ss) tail hb.2⟩

/-- A statement stays well-scoped when more is visible. -/
theorem Stmt.Scoped.mono {s : ScopeId} {vis vis' : VarId → Prop} (h : ∀ v, vis v → vis' v) :
    ∀ x : Stmt, x.Scoped t holds s vis → x.Scoped t holds s vis'
  | .bind _ e, hx => ⟨Expr.Scoped.mono h e hx.1, hx.2⟩
  | .assign (.var v) e, hx => ⟨Expr.Scoped.mono h e hx.1, h v hx.2.1, hx.2.2⟩
  | .assign (.global _) e, hx => ⟨Expr.Scoped.mono h e hx.1, hx.2⟩
  | .expr e, hx => Expr.Scoped.mono h e hx
  | .ret e, hx => ⟨optionScoped_mono h e hx.1, hx.2⟩

/-- Statements stay well-scoped when more is visible. -/
theorem stmtsScoped_mono {s : ScopeId} {vis vis' : VarId → Prop} (h : ∀ v, vis v → vis' v) :
    ∀ ss : List Stmt, stmtsScoped t holds s vis ss → stmtsScoped t holds s vis' ss
  | [], _ => trivial
  | x :: xs, hs => ⟨Stmt.Scoped.mono h x hs.1, stmtsScoped_mono (after_mono h [x]) xs hs.2⟩

end

/-- What statements make visible belongs to the scope that they stand in. -/
theorem scope_of_declared {s : ScopeId} {vis : VarId → Prop} {ss : List Stmt}
    (h : stmtsScoped t holds s vis ss) {v : VarId} (hv : v ∈ ss.flatMap Stmt.declared) :
    ∃ x, t.vars[v]? = some x ∧ x.scope = s := by
  induction ss generalizing vis with
  | nil => cases hv
  | cons x xs ih =>
    rw [List.flatMap_cons, List.mem_append] at hv
    refine hv.elim (fun hv => ?_) (ih h.2)
    cases x with
    | bind w e =>
      cases List.mem_singleton.mp hv
      exact h.1.2.1
    | assign _ _ | expr _ | ret _ => cases hv

/-- The body of a closure stays well-scoped when more is visible. -/
theorem BodyScoped.mono {s : ScopeId} {vis vis' : VarId → Prop} (h : ∀ v, vis v → vis' v) (e : Expr)
    (he : BodyScoped t holds s vis e) : BodyScoped t holds s vis' e := by
  unfold BodyScoped at he ⊢
  split at he
  · exact Block.Scoped.mono h _ he
  · exact Expr.Scoped.mono h _ he

/-- A well-scoped expression is a well-scoped body: its blocks have scopes. -/
theorem Expr.Scoped.body {s : ScopeId} {vis : VarId → Prop} {e : Expr} (he : e.Scoped t holds s vis) :
    BodyScoped t holds s vis e := by
  unfold BodyScoped
  split
  · obtain ⟨-, i, hi, -⟩ := he
    simp [Block.scope] at hi
  · exact he

end

/-- Parameters that belong to a scope and are not declared again in its body. -/
structure ParamsOf (s : ScopeId) (params binds : List VarId) : Prop where
  /-- Each belongs to the scope. -/
  scope : ∀ v ∈ params, ∃ x, t.vars[v]? = some x ∧ x.scope = s
  /-- No variable is declared twice. -/
  nodup : (params ++ binds).Nodup

end Bound

/-- A tree whose bodies are well-scoped, given what variables may hold. -/
structure ScopeTree.WellBound (t : ScopeTree) (holds : VarId → ClosureId → Prop) : Prop where
  /-- Scopes follow their parents. -/
  preorder : Preorder t.scopes
  /-- Scopes are numbered by position. -/
  scope_id : ∀ (i : Nat) s, t.scopes[i]? = some s → s.id = i
  /-- Exactly the scopes of functions have no parent. -/
  root_iff : ∀ (i : Nat) s, t.scopes[i]? = some s → (s.parent = none ↔ s.kind = .function)
  /-- A scope is one level deeper than its parent. -/
  depth : ∀ (i p : Nat) s q, t.scopes[i]? = some s → s.parent = some p → t.scopes[p]? = some q →
    s.depth = q.depth + 1
  /-- A scope has an owner. -/
  scope_owner : ∀ (i : Nat) s, t.scopes[i]? = some s → s.owner < t.fns.size
  /-- Exactly the scopes of closures name one. -/
  closure_iff : ∀ (i : Nat) s, t.scopes[i]? = some s → (s.kind = .closure ↔ ∃ c, s.closure = some c)
  /-- The closure that a scope names owns it. -/
  closure_of_scope : ∀ (i : Nat) s c, t.scopes[i]? = some s → s.closure = some c →
    ∃ k, t.closures[c]? = some k ∧ k.scope = i
  /-- Closures are numbered by position. -/
  closure_id : ∀ (c : Nat) k, t.closures[c]? = some k → k.id = c
  /-- A closure has a scope that names it, right below where it is declared. -/
  closure_scope : ∀ (c : Nat) k, t.closures[c]? = some k →
    ∃ s, t.scopes[k.scope]? = some s ∧ s.closure = some c ∧ s.parent = some k.declaredIn
  /-- A closure has an owner. -/
  closure_owner : ∀ (c : Nat) k, t.closures[c]? = some k → k.owner < t.fns.size
  /-- Variables belong to scopes. -/
  var_scope : ∀ (v : Nat) x, t.vars[v]? = some x → x.id = v ∧ x.scope < t.scopes.size
  /-- Free variables belong to scopes around the closure. -/
  free_var : ∀ (c : Nat) k v, t.closures[c]? = some k → v ∈ k.freeVars →
    ∃ x, t.vars[v]? = some x ∧ Around t.scopes x.scope k.scope
  /-- The body of a closure sees what the closure needs, and its value escapes. -/
  closure_body : ∀ (c : Nat) k, t.closures[c]? = some k →
    Bound.BodyScoped t holds k.scope (fun v => t.Needs c v ∨ v ∈ k.params) k.body ∧
      Bound.AllEscape t holds k.body.sources ∧ Bound.ParamsOf t k.scope k.params k.body.binds
  /-- Functions are numbered by position and own a scope without a parent. -/
  fn_scope : ∀ (i : Nat) f, t.fns[i]? = some f → f.id = i ∧ f.ordinal = i ∧
    ∃ s, t.scopes[f.scope]? = some s ∧ s.kind = .function
  /-- The body of a function sees its parameters, and its value escapes. -/
  fn_body : ∀ f ∈ t.fns, f.isSynthetic = false →
    Bound.Block.Scoped t holds f.scope (· ∈ f.params) f.body ∧ f.body.scope = none ∧
      Bound.AllEscape t holds f.body.sources ∧ Bound.ParamsOf t f.scope f.params f.body.binds
  /-- The initial value of a global sees no variable, and it escapes. -/
  global_init : ∀ g ∈ t.globals, ∃ f, t.fns.find? Function.isSynthetic = some f ∧
    g.init.Scoped t holds f.scope (fun _ => False) ∧ Bound.AllEscape t holds g.init.sources ∧
    g.init.binds.Nodup
  /-- No variable belongs to the scope of the function that holds the globals. -/
  global_scope : ∀ f (v : Nat) x, t.fns.find? Function.isSynthetic = some f →
    t.vars[v]? = some x → x.scope ≠ f.scope
  /-- What a variable may hold escapes if an escaping closure needs the variable. -/
  escape_needs : ∀ c v d, t.Escaping c → t.Needs c v → holds v d → t.Escaping d

/-! ## Well-named trees -/

/-- A name of the source: none of the characters that made names and keys are told by. -/
def Plain (name : String) : Prop :=
  ∀ c ∈ name.toList, c ≠ '<' ∧ c ≠ '$' ∧ c ≠ '/'

/-- A tree whose names tell its parts apart. -/
structure ScopeTree.WellNamed (t : ScopeTree) : Prop where
  /-- Variables have names of the source. -/
  var_name : ∀ x ∈ t.vars, Plain x.name
  /-- Functions have names of the source, but for the one that holds the globals. -/
  fn_name : ∀ f ∈ t.fns, if f.isSynthetic then f.name = moduleFn else Plain f.name
  /-- Globals have names of the source. -/
  global_name : ∀ g ∈ t.globals, Plain g.name
  /-- No two items have one name. -/
  items : (t.fns.toList.map Function.name ++ t.globals.toList.map Global.name).Nodup
  /-- Keys tell scopes apart. -/
  key : ∀ (i j : Nat) s s', t.scopes[i]? = some s → t.scopes[j]? = some s' → s.key = s'.key → i = j
  /-- Ordinals tell the closures of a function apart. -/
  ordinal : ∀ (c d : Nat) k l, t.closures[c]? = some k → t.closures[d]? = some l →
    k.owner = l.owner → k.ordinal = l.ordinal → c = d

end ClosureEnv
