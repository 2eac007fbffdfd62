import ClosureEnv.Binding.Module
import ClosureEnv.Proofs.Binding.Frames

/-!
# The steps of binding

Each primitive step as a function of the state, and each construct as the runs of its parts.
-/

namespace ClosureEnv.Binding

variable {P : String → Prop} {b b' : State}

/-- A step that gives a result did its first part, and then the rest. -/
theorem run_bind_eq_ok {α β : Type} {x : Bind α} {f : α → Bind β} {r : β × State} :
    (x >>= f).run b = .ok r ↔ ∃ a b', x.run b = .ok (a, b') ∧ (f a).run b' = .ok r := by
  rw [StateT.run_bind]
  rcases x.run b with e | ⟨a, b'⟩
  · exact ⟨nofun, fun ⟨_, _, h, _⟩ => nomatch h⟩
  · refine ⟨fun h => ⟨a, b', rfl, h⟩, ?_⟩
    rintro ⟨_, _, h, h'⟩
    cases h
    exact h'

/-- A step that only returns leaves the state alone. -/
theorem run_pure_eq_ok {α : Type} {a : α} {r : α × State} :
    (pure a : Bind α).run b = .ok r ↔ r = (a, b) := by
  rw [StateT.run_pure]
  exact ⟨fun h => (Except.ok.inj h).symm, fun h => h ▸ rfl⟩

/-- Looking at the state leaves it alone. -/
theorem run_get_bind {α : Type} {f : State → Bind α} : (get >>= f).run b = (f b).run b :=
  rfl

/-- Giving up gives no result. -/
theorem run_throw_ne_ok {α : Type} {e : BindError} {r : α × State} :
    (throw e : Bind α).run b ≠ .ok r :=
  nofun

namespace State

/-- The scope that is opened next. -/
def newScope (b : State) (kind : ScopeKind) (closure : Option ClosureId)
    (span : Syntax.Span) : Scope where
  id := b.scopes.size
  kind
  parent := b.frames.head?.map Frame.scope
  key := match b.frames with
    | f :: _ => (b.scopes[f.scope]?.getD default).key ++ "/"
        ++ toString (b.childCounts[f.scope]?.getD 0)
    | [] => b.current.name
  owner := b.current.id
  closure
  depth := match b.frames with
    | f :: _ => (b.scopes[f.scope]?.getD default).depth + 1
    | [] => 0
  span

/-- After a scope is opened. -/
def opened (b : State) (kind : ScopeKind) (closure : Option ClosureId)
    (span : Syntax.Span) : State :=
  { b with
    scopes := b.scopes.push (b.newScope kind closure span)
    childCounts := (match b.frames with
      | f :: _ => b.childCounts.modify f.scope (· + 1)
      | [] => b.childCounts).push 0
    frames := ⟨b.scopes.size, []⟩ :: b.frames }

/-- After the innermost scope is closed. -/
def closed (b : State) : State :=
  { b with frames := b.frames.tail }

/-- After a variable is declared. -/
def declared (b : State) (name : String) (ty : Ty) (isMut isParam : Bool)
    (span : Syntax.Span) : State :=
  { b with
    vars := b.vars.push ⟨b.vars.size, name, ty, isMut, b.currentScope, isParam, span⟩
    varSources := b.varSources.push []
    frames := match b.frames with
      | f :: fs => { f with names := (name, b.vars.size) :: f.names } :: fs
      | [] => [] }

/-- After a closure is known to mention a variable from outside. -/
def mentioned (b : State) (c : ClosureId) (v : VarId) : State :=
  { b with closures := b.closures.modify c fun closure =>
      if closure.freeVars.contains v then closure
      else { closure with freeVars := closure.freeVars ++ [v] } }

/-- After a use of a variable is noted. -/
def used (b : State) (v : VarId) : State :=
  match b.closureStack with
  | [] => b
  | c :: _ =>
    if isStrictAncestorIn b.scopes (b.vars[v]?.getD default).scope
        (b.closures[c]?.getD default).scope then b.mentioned c v
    else b

/-- After some sources are stored into a variable. -/
def stored (b : State) (v : VarId) (sources : List Source) : State :=
  { b with varSources := b.varSources.modify v (· ++ sources) }

/-- After a sink is noted. -/
def drainedBy (b : State) (sink : Sink) : State :=
  { b with sinks := sink :: b.sinks }

/-- The closure that is opened next. -/
def newClosure (b : State) (span : Syntax.Span) : Closure :=
  ⟨b.closures.size, b.scopes.size, b.currentScope, b.current.id, b.current.closureCount, [], false,
    [], .lit .nil, span⟩

/-- After the scope of a closure is opened. -/
def openedClosure (b : State) (span : Syntax.Span) : State :=
  let b' := b.opened .closure (some b.closures.size) span
  { b' with
    current := { b.current with closureCount := b.current.closureCount + 1 }
    closures := b.closures.push (b.newClosure span)
    closureStack := b.closures.size :: b.closureStack }

/-- After the scope of a closure is closed. -/
def closedClosure (b : State) : State :=
  { b with closureStack := b.closureStack.tail, frames := b.frames.tail }

/-- After the parameters and the body of a closure are recorded. -/
def recorded (b : State) (c : ClosureId) (params : List VarId) (body : Bound.Expr) : State :=
  { b with closures := b.closures.modify c fun k => { k with params, body } }

/-- After a closure is ended. -/
def finished (b : State) (c : ClosureId) (params : List VarId) (body : Bound.Expr)
    (sources : List Source) : State :=
  (b.closedClosure.drainedBy (.escape sources)).recorded c params body

/-- After a function is started. -/
def started (b : State) (name : String) (generics : List String) (span : Syntax.Span)
    (isSynthetic : Bool) : State :=
  let b' := { b with current := ⟨b.fns.size, name, generics, 0, 0, isSynthetic⟩ }
  { b'.opened .function none span with
    current := ⟨b.fns.size, name, generics, b.scopes.size, 0, isSynthetic⟩ }

/-- The current function with its body. -/
def currentFn (b : State) (params : List VarId) (ret : Ty) (body : Bound.Block) : Function :=
  ⟨b.current.id, b.current.name, b.current.generics, b.current.scope, b.current.id, params, ret,
    body, b.current.isSynthetic⟩

/-- After a function is ended. -/
def ended (b : State) (params : List VarId) (ret : Ty) (body : Bound.Block) : State :=
  { b with
    frames := b.frames.tail
    fns := b.fns.push (b.currentFn params ret body) }

/-- Only the closure that mentions the variable is different then. -/
theorem getElem?_mentioned (b : State) (c : ClosureId) (v : VarId) (d : Nat) :
    (b.mentioned c v).closures[d]? = if c = d then b.closures[d]?.map fun k =>
      if k.freeVars.contains v then k else { k with freeVars := k.freeVars ++ [v] }
    else b.closures[d]? :=
  Array.getElem?_modify

/-- Only the closure that is recorded is different then. -/
theorem getElem?_recorded (b : State) (c : ClosureId) (params : List VarId) (body : Bound.Expr)
    (d : Nat) : (b.recorded c params body).closures[d]? =
      if c = d then b.closures[d]?.map fun k => { k with params, body } else b.closures[d]? :=
  Array.getElem?_modify

/-- Only the closure that is ended is different then. -/
theorem getElem?_finished (b : State) (c : ClosureId) (params : List VarId) (body : Bound.Expr)
    (sources : List Source) (d : Nat) : (b.finished c params body sources).closures[d]? =
      if c = d then b.closures[d]?.map fun k => { k with params, body } else b.closures[d]? :=
  Array.getElem?_modify

end State

/-- Opening a scope gives its number. -/
theorem openScope_run (kind : ScopeKind) (closure : Option ClosureId) (span : Syntax.Span) :
    (openScope kind closure span).run b = .ok (b.scopes.size, b.opened kind closure span) := by
  obtain ⟨scopes, counts, vars, closures, fns, globals, fnTypes, globalTypes, frames, stack, current,
    varSources, sinks⟩ := b
  cases frames <;> rfl

/-- Closing a scope always succeeds. -/
theorem closeScope_run : closeScope.run b = .ok ((), b.closed) :=
  rfl

/-- Declaring a variable gives its number. -/
theorem declare_run (name : String) (ty : Ty) (isMut isParam : Bool) (span : Syntax.Span) :
    (declare name ty isMut isParam span).run b =
      .ok (b.vars.size, b.declared name ty isMut isParam span) :=
  rfl

/-- Noting a use always succeeds. -/
theorem noteUse_run (v : VarId) : (noteUse v).run b = .ok ((), b.used v) :=
  rfl

/-- Storing always succeeds. -/
theorem store_run (v : VarId) (sources : List Source) :
    (store v sources).run b = .ok ((), b.stored v sources) :=
  rfl

/-- Noting a sink always succeeds. -/
theorem drain_run (sink : Sink) : (drain sink).run b = .ok ((), b.drainedBy sink) :=
  rfl

/-- Declaring parameters, with the type parameters that there are. -/
theorem declareParams_run (params : List Syntax.Param) : (declareParams params).run b =
    (params.mapM fun p => declare p.name.text (paramTy b.current.generics p) true true p.span).run
      b := by
  unfold declareParams
  exact run_get_bind

/-- Finding the type of a binding leaves the state alone. -/
theorem bindingTy_run {stated : Option Syntax.TypeExpr} {generics : List String}
    {value : Bound.Expr} {ty : Ty} (h : (bindingTy stated generics value).run b = .ok (ty, b')) :
    b' = b := by
  cases stated <;> exact (Prod.mk.inj (Except.ok.inj h)).2.symm

/-- Opening the scope of a closure, and then its parameters. -/
theorem openClosure_run {params : List Syntax.Param} {span : Syntax.Span} {c : ClosureId}
    {vs : List VarId} : (openClosure params span).run b = .ok ((c, vs), b') ↔
      c = b.closures.size ∧ (declareParams params).run (b.openedClosure span) = .ok (vs, b') := by
  have hopen : (openClosure params span).run b =
      ((declareParams params).run (b.openedClosure span)).map
        fun r => ((b.closures.size, r.1), r.2) := by
    obtain ⟨scopes, counts, vars, closures, fns, globals, fnTypes, globalTypes, frames, stack,
      current, varSources, sinks⟩ := b
    cases frames <;> rfl
  rw [hopen]
  rcases (declareParams params).run (b.openedClosure span) with e | ⟨ws, b₁⟩
  · simp [Except.map]
  · simp only [Except.map, Except.ok.injEq, Prod.mk.injEq]
    exact ⟨fun ⟨⟨hc, hv⟩, hb⟩ => ⟨hc.symm, hv, hb⟩, fun ⟨hc, hv, hb⟩ => ⟨⟨hc.symm, hv⟩, hb⟩⟩

/-- Ending a closure gives its literal. -/
theorem closeClosure_run (c : ClosureId) (params : List VarId) (body : Bound.Expr)
    (sources : List Source) : (closeClosure c params body sources).run b =
      .ok ((.closure c, [.closure c]), b.finished c params body sources) :=
  rfl

/-- Starting a function. -/
theorem openFn_run (name : String) (generics : List String) (span : Syntax.Span)
    (isSynthetic : Bool) : (openFn name generics span isSynthetic).run b =
      .ok ((), b.started name generics span isSynthetic) := by
  obtain ⟨scopes, counts, vars, closures, fns, globals, fnTypes, globalTypes, frames, stack, current,
    varSources, sinks⟩ := b
  cases frames <;> rfl

/-- Ending a function. -/
theorem closeFn_run (params : List VarId) (ret : Ty) (body : Bound.Block) :
    (closeFn params ret body).run b = .ok ((), b.ended params ret body) :=
  rfl

/-! ## Constructs

What the binder does at a construct, as the runs of its parts. A proof about binding takes the case
of a construct from here and goes on with the parts. -/

section Constructs

open Syntax (Ident Param Span TypeExpr FnDecl LetDecl)

variable {x : Bound.Expr} {ss : List Source} {span : Span}

/-- What a name is resolved to, and the state after that. -/
inductive ResolveRun (b : State) (name : String) : Bound.Expr → List Source → State → Prop
  /-- A variable in sight, whose use is noted. -/
  | var {v : VarId} (hv : b.lookup? name = some v) : ResolveRun b name (.var v) [.var v] (b.used v)
  /-- A global. -/
  | global (hnone : b.lookup? name = none) (hglobal : (b.globalTypes.lookup name).isSome) :
      ResolveRun b name (.global name) [] b
  /-- A function. -/
  | fn (hnone : b.lookup? name = none) (hglobal : ¬ (b.globalTypes.lookup name).isSome)
      (hfn : (b.fnTypes.lookup name).isSome) : ResolveRun b name (.fn name) [] b

/-- A name. -/
theorem resolve_run {name : Ident} (hrun : (resolve name).run b = .ok ((x, ss), b')) :
    ResolveRun b name.text x ss b' := by
  simp only [resolve, run_get_bind] at hrun
  split at hrun
  · next v hv =>
    obtain ⟨_, _, huse, hrun⟩ := run_bind_eq_ok.mp hrun
    cases (noteUse_run v).symm.trans huse
    cases run_pure_eq_ok.mp hrun
    exact .var hv
  · next hnone =>
    split at hrun
    · next hglobal =>
      cases run_pure_eq_ok.mp hrun
      exact .global hnone hglobal
    · next hglobal =>
      split at hrun
      · next hfn =>
        cases run_pure_eq_ok.mp hrun
        exact .fn hnone hglobal hfn
      · exact absurd hrun run_throw_ne_ok

/-- What is assigned to, and the state after that. -/
inductive AssignRun (b : State) (name : String) (value : Bound.Expr) (ss : List Source) :
    Bound.Stmt → State → Prop
  /-- A variable in sight, whose use is noted. -/
  | var {v : VarId} (hv : b.lookup? name = some v) (hmut : (b.vars[v]?.getD default).isMut) :
      AssignRun b name value ss (.assign (.var v) value)
        (((b.used v).stored v ss).drainedBy (.below (b.vars[v]?.getD default).scope ss))
  /-- A global, which lets the value escape. -/
  | global {ty : Ty} (hnone : b.lookup? name = none)
      (hglobal : b.globalTypes.lookup name = some (true, ty)) :
      AssignRun b name value ss (.assign (.global name) value) (b.drainedBy (.escape ss))

/-- The target of an assignment. -/
theorem assign_run {target : Ident} {value : Bound.Expr} {y : Bound.Stmt}
    (hrun : (assign target span value ss).run b = .ok (y, b')) :
    AssignRun b target.text value ss y b' := by
  simp only [assign, run_get_bind] at hrun
  split at hrun
  · -- The target is a variable, and the assignment is given up if that is not mutable.
    next v hv =>
    split at hrun
    · obtain ⟨_, _, hthrow, -⟩ := run_bind_eq_ok.mp hrun
      exact absurd hthrow run_throw_ne_ok
    · next hmut =>
      obtain ⟨_, _, huse, hrun⟩ := run_bind_eq_ok.mp hrun
      cases (noteUse_run v).symm.trans huse
      obtain ⟨_, _, hstore, hrun⟩ := run_bind_eq_ok.mp hrun
      cases (store_run v ss).symm.trans hstore
      obtain ⟨_, _, hdrain, hrun⟩ := run_bind_eq_ok.mp hrun
      cases (drain_run _).symm.trans hdrain
      cases run_pure_eq_ok.mp hrun
      exact .var hv (by simpa using hmut)
  · -- Otherwise it is a mutable global, or nothing that can be assigned.
    next hnone =>
    split at hrun
    · next hglobal =>
      obtain ⟨_, _, hdrain, hrun⟩ := run_bind_eq_ok.mp hrun
      cases (drain_run _).symm.trans hdrain
      cases run_pure_eq_ok.mp hrun
      exact .global hnone hglobal
    · exact absurd hrun run_throw_ne_ok
    · split at hrun <;> exact absurd hrun run_throw_ne_ok

/-- Parameters, one after the other. -/
theorem declareParams_cons_run {f : Param → Ty} {p : Param} {params : List Param}
    {vs : List VarId} (hrun : ((p :: params).mapM (fun p =>
      declare p.name.text (f p) true true p.span) : Bind _).run b = .ok (vs, b')) :
    ∃ ws, (params.mapM (fun p => declare p.name.text (f p) true true p.span) : Bind _).run
        (b.declared p.name.text (f p) true true p.span) = .ok (ws, b') ∧
      vs = b.vars.size :: ws := by
  rw [List.mapM_cons, run_bind_eq_ok] at hrun
  obtain ⟨v, b₁, hdeclare, hrun⟩ := hrun
  cases (declare_run _ _ _ _ _).symm.trans hdeclare
  obtain ⟨ws, b₂, h, hrun⟩ := run_bind_eq_ok.mp hrun
  cases run_pure_eq_ok.mp hrun
  exact ⟨ws, h, rfl⟩

/-- An operator is applied to an operand. -/
theorem bindExpr_unary_run {op : Syntax.UnaryOp} {operand : Syntax.Expr}
    (hrun : (bindExpr (.unary op operand span)).run b = .ok ((x, ss), b')) :
    ∃ y ts, (bindExpr operand).run b = .ok ((y, ts), b') ∧ x = .unary op y ∧ ss = [] := by
  rw [bindExpr, run_bind_eq_ok] at hrun
  obtain ⟨⟨y, ts⟩, b₁, h, hrun⟩ := hrun
  cases run_pure_eq_ok.mp hrun
  exact ⟨y, ts, h, rfl, rfl⟩

/-- An operator is applied to two operands. -/
theorem bindExpr_binary_run {op : Syntax.BinaryOp} {lhs rhs : Syntax.Expr}
    (hrun : (bindExpr (.binary op lhs rhs span)).run b = .ok ((x, ss), b')) :
    ∃ l r ts us b₁, (bindExpr lhs).run b = .ok ((l, ts), b₁) ∧
      (bindExpr rhs).run b₁ = .ok ((r, us), b') ∧ x = .binary op l r ∧ ss = [] := by
  rw [bindExpr, run_bind_eq_ok] at hrun
  obtain ⟨⟨l, ts⟩, b₁, h, hrun⟩ := hrun
  obtain ⟨⟨r, us⟩, b₂, h', hrun⟩ := run_bind_eq_ok.mp hrun
  cases run_pure_eq_ok.mp hrun
  exact ⟨l, r, ts, us, b₁, h, h', rfl, rfl⟩

/-- A call. -/
theorem bindExpr_call_run {callee : Syntax.Expr} {args : List Syntax.Expr}
    (hrun : (bindExpr (.call callee args span)).run b = .ok ((x, ss), b')) :
    ∃ f ts xs b₁, (bindExpr callee).run b = .ok ((f, ts), b₁) ∧
      (bindArgs args).run b₁ = .ok (xs, b') ∧ x = .call f xs ∧ ss = [] := by
  rw [bindExpr, run_bind_eq_ok] at hrun
  obtain ⟨⟨f, ts⟩, b₁, h, hrun⟩ := hrun
  obtain ⟨xs, b₂, h', hrun⟩ := run_bind_eq_ok.mp hrun
  cases run_pure_eq_ok.mp hrun
  exact ⟨f, ts, xs, b₁, h, h', rfl, rfl⟩

/-- A block, whose value goes to where the block stands. -/
theorem bindExpr_block_run {body : Syntax.Block}
    (hrun : (bindExpr (.block body)).run b = .ok ((x, ss), b')) :
    ∃ y b₁, (bindScoped .block body).run b = .ok ((y, ss), b₁) ∧ x = .block y ∧
      b' = b₁.drainedBy (.within (y.scope.getD 0) ss) := by
  rw [bindExpr, run_bind_eq_ok] at hrun
  obtain ⟨⟨y, ts⟩, b₁, h, hrun⟩ := hrun
  obtain ⟨_, _, hdrain, hrun⟩ := run_bind_eq_ok.mp hrun
  cases (drain_run _).symm.trans hdrain
  cases run_pure_eq_ok.mp hrun
  exact ⟨y, b₁, h, rfl, rfl⟩

/-- A choice between a block and another expression. -/
theorem bindExpr_cond_run {test : Syntax.Expr} {yes : Syntax.Block} {no : Option Syntax.Expr}
    (hrun : (bindExpr (.cond test yes no span)).run b = .ok ((x, ss), b')) :
    ∃ c ts y us n vs b₁ b₂, (bindExpr test).run b = .ok ((c, ts), b₁) ∧
      (bindScoped .block yes).run b₁ = .ok ((y, us), b₂) ∧
      (bindOption no).run (b₂.drainedBy (.within (y.scope.getD 0) us)) = .ok ((n, vs), b') ∧
      x = .cond c y n ∧ ss = us ++ vs := by
  rw [bindExpr, run_bind_eq_ok] at hrun
  obtain ⟨⟨c, ts⟩, b₁, h₁, hrun⟩ := hrun
  obtain ⟨⟨y, us⟩, b₂, h₂, hrun⟩ := run_bind_eq_ok.mp hrun
  obtain ⟨_, _, hdrain, hrun⟩ := run_bind_eq_ok.mp hrun
  cases (drain_run _).symm.trans hdrain
  obtain ⟨⟨n, vs⟩, b₃, h₃, hrun⟩ := run_bind_eq_ok.mp hrun
  cases run_pure_eq_ok.mp hrun
  exact ⟨c, ts, y, us, n, vs, b₁, b₂, h₁, h₂, h₃, rfl, rfl⟩

/-- A loop. -/
theorem bindExpr_loop_run {test : Syntax.Expr} {body : Syntax.Block}
    (hrun : (bindExpr (.loop test body span)).run b = .ok ((x, ss), b')) :
    ∃ c ts y us b₁, (bindExpr test).run b = .ok ((c, ts), b₁) ∧
      (bindScoped .loop body).run b₁ = .ok ((y, us), b') ∧ x = .loop c y ∧ ss = [] := by
  rw [bindExpr, run_bind_eq_ok] at hrun
  obtain ⟨⟨c, ts⟩, b₁, h, hrun⟩ := hrun
  obtain ⟨⟨y, us⟩, b₂, h', hrun⟩ := run_bind_eq_ok.mp hrun
  cases run_pure_eq_ok.mp hrun
  exact ⟨c, ts, y, us, b₁, h, h', rfl, rfl⟩

/-- Binding a closure whose body is no block. -/
theorem bindExpr_closure {params : List Param} {body : Syntax.Expr}
    (hno : ∀ inner, body ≠ .block inner) : bindExpr (.closure params body span) = (do
      let (id, vars) ← openClosure params span
      let (x, sources) ← bindExpr body
      closeClosure id vars x sources) := by
  cases body with
  | block inner => exact absurd rfl (hno inner)
  | _ => rfl

/-- The runs of a body of a closure. The locals of a block that is the body belong to the scope of
the closure. -/
inductive BodyRun (body : Syntax.Expr) (b b' : State) : Bound.Expr → List Source → Prop
  /-- A block opens no scope of its own. -/
  | block {inner : Syntax.Block} {y : Bound.Block} {ss : List Source}
      (hinner : body = .block inner) (hrun : (bindBlock none inner).run b = .ok ((y, ss), b')) :
      BodyRun body b b' (.block y) ss
  /-- Another expression is bound as it is. -/
  | expr {x : Bound.Expr} {ss : List Source} (hno : ∀ inner, body ≠ .block inner)
      (hrun : (bindExpr body).run b = .ok ((x, ss), b')) : BodyRun body b b' x ss

/-- A closure. -/
theorem bindExpr_closure_run {params : List Param} {body : Syntax.Expr}
    (hrun : (bindExpr (.closure params body span)).run b = .ok ((x, ss), b')) :
    ∃ vs y ts b₁ b₂, (declareParams params).run (b.openedClosure span) = .ok (vs, b₁) ∧
      BodyRun body b₁ b₂ y ts ∧ x = .closure b.closures.size ∧ ss = [.closure b.closures.size] ∧
      b' = b₂.finished b.closures.size vs y ts := by
  by_cases hbody : ∃ inner, body = .block inner
  · obtain ⟨inner, rfl⟩ := hbody
    rw [bindExpr, run_bind_eq_ok] at hrun
    obtain ⟨⟨c, vs⟩, b₁, h₁, hrun⟩ := hrun
    obtain ⟨rfl, hps⟩ := openClosure_run.mp h₁
    obtain ⟨⟨y, ts⟩, b₂, h₂, hrun⟩ := run_bind_eq_ok.mp hrun
    cases (closeClosure_run _ vs _ ts).symm.trans hrun
    exact ⟨vs, .block y, ts, b₁, b₂, hps, .block rfl h₂, rfl, rfl, rfl⟩
  · have hno (inner : Syntax.Block) : body ≠ .block inner := fun hinner => hbody ⟨inner, hinner⟩
    rw [bindExpr_closure hno, run_bind_eq_ok] at hrun
    obtain ⟨⟨c, vs⟩, b₁, h₁, hrun⟩ := hrun
    obtain ⟨rfl, hps⟩ := openClosure_run.mp h₁
    obtain ⟨⟨y, ts⟩, b₂, h₂, hrun⟩ := run_bind_eq_ok.mp hrun
    cases (closeClosure_run _ vs _ ts).symm.trans hrun
    exact ⟨vs, y, ts, b₁, b₂, hps, .expr hno h₂, rfl, rfl, rfl⟩

/-- An optional expression that is there. -/
theorem bindOption_some_run {e : Syntax.Expr} {x : Option Bound.Expr}
    (hrun : (bindOption (some e)).run b = .ok ((x, ss), b')) :
    ∃ y, (bindExpr e).run b = .ok ((y, ss), b') ∧ x = some y := by
  rw [bindOption, run_bind_eq_ok] at hrun
  obtain ⟨⟨y, ts⟩, b₁, h, hrun⟩ := hrun
  cases run_pure_eq_ok.mp hrun
  exact ⟨y, h, rfl⟩

/-- Arguments, the first of which escapes before the next is bound. -/
theorem bindArgs_cons_run {e : Syntax.Expr} {es : List Syntax.Expr} {xs : List Bound.Expr}
    (hrun : (bindArgs (e :: es)).run b = .ok (xs, b')) :
    ∃ y ts ys b₁, (bindExpr e).run b = .ok ((y, ts), b₁) ∧
      (bindArgs es).run (b₁.drainedBy (.escape ts)) = .ok (ys, b') ∧ xs = y :: ys := by
  rw [bindArgs, run_bind_eq_ok] at hrun
  obtain ⟨⟨y, ts⟩, b₁, h, hrun⟩ := hrun
  obtain ⟨_, _, hdrain, hrun⟩ := run_bind_eq_ok.mp hrun
  cases (drain_run _).symm.trans hdrain
  obtain ⟨ys, b₂, h', hrun⟩ := run_bind_eq_ok.mp hrun
  cases run_pure_eq_ok.mp hrun
  exact ⟨y, ts, ys, b₁, h, h', rfl⟩

/-- A block that opens a scope. -/
theorem bindScoped_run {kind : ScopeKind} {stmts : List Syntax.Stmt} {tail : Option Syntax.Expr}
    {y : Bound.Block} (hrun : (bindScoped kind (.mk stmts tail span)).run b = .ok ((y, ss), b')) :
    ∃ xs t b₁ b₂, (bindStmts stmts).run (b.opened kind none span) = .ok (xs, b₁) ∧
      (bindOption tail).run b₁ = .ok ((t, ss), b₂) ∧ y = .mk (some b.scopes.size) xs t ∧
      b' = b₂.closed := by
  rw [bindScoped, run_bind_eq_ok] at hrun
  obtain ⟨_, _, hopen, hrun⟩ := hrun
  cases (openScope_run kind none span).symm.trans hopen
  obtain ⟨xs, b₁, h₁, hrun⟩ := run_bind_eq_ok.mp hrun
  obtain ⟨⟨t, ts⟩, b₂, h₂, hrun⟩ := run_bind_eq_ok.mp hrun
  obtain ⟨_, _, hclose, hrun⟩ := run_bind_eq_ok.mp hrun
  cases closeScope_run.symm.trans hclose
  cases run_pure_eq_ok.mp hrun
  exact ⟨xs, t, b₁, b₂, h₁, h₂, rfl, rfl⟩

/-- The contents of a block in the current scope. -/
theorem bindBlock_run {scope : Option ScopeId} {stmts : List Syntax.Stmt}
    {tail : Option Syntax.Expr} {y : Bound.Block}
    (hrun : (bindBlock scope (.mk stmts tail span)).run b = .ok ((y, ss), b')) :
    ∃ xs t b₁, (bindStmts stmts).run b = .ok (xs, b₁) ∧
      (bindOption tail).run b₁ = .ok ((t, ss), b') ∧ y = .mk scope xs t := by
  rw [bindBlock, run_bind_eq_ok] at hrun
  obtain ⟨xs, b₁, h, hrun⟩ := hrun
  obtain ⟨⟨t, ts⟩, b₂, h', hrun⟩ := run_bind_eq_ok.mp hrun
  cases run_pure_eq_ok.mp hrun
  exact ⟨xs, t, b₁, h, h', rfl⟩

/-- Statements, one after the other. -/
theorem bindStmts_cons_run {s : Syntax.Stmt} {stmts : List Syntax.Stmt} {xs : List Bound.Stmt}
    (hrun : (bindStmts (s :: stmts)).run b = .ok (xs, b')) :
    ∃ y ys b₁, (bindStmt s).run b = .ok (y, b₁) ∧ (bindStmts stmts).run b₁ = .ok (ys, b') ∧
      xs = y :: ys := by
  rw [bindStmts, run_bind_eq_ok] at hrun
  obtain ⟨y, b₁, h, hrun⟩ := hrun
  obtain ⟨ys, b₂, h', hrun⟩ := run_bind_eq_ok.mp hrun
  cases run_pure_eq_ok.mp hrun
  exact ⟨y, ys, b₁, h, h', rfl⟩

/-- A declaration: the variable comes to be after its value, which is stored into it. -/
theorem bindStmt_bind_run {isMut : Bool} {name : Ident} {stated : Option TypeExpr}
    {value : Syntax.Expr} {y : Bound.Stmt}
    (hrun : (bindStmt (.bind isMut name stated value span)).run b = .ok (y, b')) :
    ∃ z ts ty b₁, (bindExpr value).run b = .ok ((z, ts), b₁) ∧
      (bindingTy stated b₁.current.generics z).run b₁ = .ok (ty, b₁) ∧
      y = .bind b₁.vars.size z ∧
      b' = (b₁.declared name.text ty isMut false span).stored b₁.vars.size ts := by
  rw [bindStmt, run_bind_eq_ok] at hrun
  obtain ⟨⟨z, ts⟩, b₁, h, hrun⟩ := hrun
  rw [run_get_bind, run_bind_eq_ok] at hrun
  obtain ⟨ty, b₂, hty, hrun⟩ := hrun
  obtain rfl := bindingTy_run hty
  obtain ⟨v, _, hdeclare, hrun⟩ := run_bind_eq_ok.mp hrun
  cases (declare_run name.text ty isMut false span).symm.trans hdeclare
  obtain ⟨_, _, hstore, hrun⟩ := run_bind_eq_ok.mp hrun
  cases (store_run _ ts).symm.trans hstore
  cases run_pure_eq_ok.mp hrun
  exact ⟨z, ts, ty, b₂, h, hty, rfl, rfl⟩

/-- An assignment, whose value is bound before its target is looked up. -/
theorem bindStmt_assign_run {target : Ident} {value : Syntax.Expr} {y : Bound.Stmt}
    (hrun : (bindStmt (.assign target value span)).run b = .ok (y, b')) :
    ∃ z ts b₁, (bindExpr value).run b = .ok ((z, ts), b₁) ∧
      (assign target span z ts).run b₁ = .ok (y, b') := by
  rw [bindStmt, run_bind_eq_ok] at hrun
  obtain ⟨⟨z, ts⟩, b₁, h, hrun⟩ := hrun
  exact ⟨z, ts, b₁, h, hrun⟩

/-- An expression as a statement. -/
theorem bindStmt_expr_run {value : Syntax.Expr} {y : Bound.Stmt}
    (hrun : (bindStmt (.expr value span)).run b = .ok (y, b')) :
    ∃ z ts, (bindExpr value).run b = .ok ((z, ts), b') ∧ y = .expr z := by
  rw [bindStmt, run_bind_eq_ok] at hrun
  obtain ⟨⟨z, ts⟩, b₁, h, hrun⟩ := hrun
  cases run_pure_eq_ok.mp hrun
  exact ⟨z, ts, h, rfl⟩

/-- A value that is returned escapes. -/
theorem bindStmt_ret_run {value : Syntax.Expr} {y : Bound.Stmt}
    (hrun : (bindStmt (.ret (some value) span)).run b = .ok (y, b')) :
    ∃ z ts b₁, (bindExpr value).run b = .ok ((z, ts), b₁) ∧ y = .ret (some z) ∧
      b' = b₁.drainedBy (.escape ts) := by
  rw [bindStmt, run_bind_eq_ok] at hrun
  obtain ⟨⟨z, ts⟩, b₁, h, hrun⟩ := hrun
  obtain ⟨_, _, hdrain, hrun⟩ := run_bind_eq_ok.mp hrun
  cases (drain_run _).symm.trans hdrain
  cases run_pure_eq_ok.mp hrun
  exact ⟨z, ts, b₁, h, rfl, rfl⟩

/-- A function. -/
theorem bindFn_run {d : FnDecl} {r : Unit} (hrun : (bindFn d).run b = .ok (r, b')) :
    ∃ vs y ts ret b₁ b₂,
      (d.params.mapM (fun p =>
        declare p.name.text (paramTy (d.generics.map Ident.text) p) true true p.span) : Bind _).run
          (b.started d.name.text (d.generics.map Ident.text) d.span false) = .ok (vs, b₁) ∧
      (bindBlock none d.body).run b₁ = .ok ((y, ts), b₂) ∧
      b' = (b₂.drainedBy (.escape ts)).ended vs ret y := by
  rw [bindFn, run_bind_eq_ok] at hrun
  obtain ⟨_, _, hopen, hrun⟩ := hrun
  cases (openFn_run _ _ _ _).symm.trans hopen
  obtain ⟨vs, b₁, h₁, hrun⟩ := run_bind_eq_ok.mp hrun
  obtain ⟨⟨y, ts⟩, b₂, h₂, hrun⟩ := run_bind_eq_ok.mp hrun
  obtain ⟨_, _, hdrain, hrun⟩ := run_bind_eq_ok.mp hrun
  cases (drain_run _).symm.trans hdrain
  obtain ⟨ret, _, hty, hrun⟩ := run_bind_eq_ok.mp hrun
  cases bindingTy_run hty
  cases (closeFn_run vs ret y).symm.trans hrun
  rw [declareParams_run] at h₁
  exact ⟨vs, y, ts, ret, b₁, b₂, h₁, h₂, rfl⟩

/-- A global, whose initial value escapes. -/
theorem bindGlobal_run {d : LetDecl} {r : Unit} (hrun : (bindGlobal d).run b = .ok (r, b')) :
    ∃ y ts ty b₁, (bindExpr d.value).run b = .ok ((y, ts), b₁) ∧
      b' = { b₁.drainedBy (.escape ts) with
        globalTypes := (d.name.text, d.isMut, ty) :: b₁.globalTypes
        globals := b₁.globals.push ⟨d.name.text, d.isMut, ty, y⟩ } := by
  rw [bindGlobal, run_bind_eq_ok] at hrun
  obtain ⟨⟨y, ts⟩, b₁, h, hrun⟩ := hrun
  obtain ⟨_, _, hdrain, hrun⟩ := run_bind_eq_ok.mp hrun
  cases (drain_run _).symm.trans hdrain
  obtain ⟨ty, _, hty, hrun⟩ := run_bind_eq_ok.mp hrun
  cases bindingTy_run hty
  cases hrun
  exact ⟨y, ts, ty, b₁, h, rfl⟩

/-- A module: the items are made known, the functions are bound, and then the globals, in a function
of their own if there are any. -/
theorem bindState_run {m : Syntax.Module} {F : State} (hF : bindState m = .ok F) :
    ∃ b₀ b₁, (declareItems [] m.items).run .empty = .ok ((), b₀) ∧
      ((functions m.items).forM bindFn).run b₀ = .ok ((), b₁) ∧
      (globals m.items = [] ∧ F = b₁ ∨ globals m.items ≠ [] ∧ ∃ b₂,
        ((globals m.items).forM bindGlobal).run (b₁.started moduleFn [] m.span true) =
          .ok ((), b₂) ∧ F = b₂.ended [] .unit (.mk none [] none)) := by
  unfold bindState at hF
  cases hrun : (bindItems m).run .empty with
  | error e => rw [hrun] at hF; cases hF
  | ok q =>
    rw [hrun] at hF
    cases hF
    rw [bindItems, run_bind_eq_ok] at hrun
    obtain ⟨⟨⟩, b₀, h₀, hrun⟩ := hrun
    obtain ⟨⟨⟩, b₁, h₁, hrun⟩ := run_bind_eq_ok.mp hrun
    refine ⟨b₀, b₁, h₀, h₁, ?_⟩
    split at hrun
    · next hnone =>
      cases run_pure_eq_ok.mp hrun
      exact .inl ⟨hnone, rfl⟩
    · next hsome =>
      obtain ⟨_, _, hopen, hrun⟩ := run_bind_eq_ok.mp hrun
      cases (openFn_run moduleFn [] m.span true).symm.trans hopen
      obtain ⟨⟨⟩, b₂, h₂, hrun⟩ := run_bind_eq_ok.mp hrun
      cases (closeFn_run [] .unit (.mk none [] none)).symm.trans hrun
      exact .inr ⟨hsome, b₂, h₂, rfl⟩

/-- The tree of a module is that of the state after all items. -/
theorem exists_of_bindModule {m : Syntax.Module} {unit : String} {t : ScopeTree}
    (ht : bindModule m unit = .ok t) : ∃ F, bindState m = .ok F ∧ t = F.finish unit := by
  unfold bindModule at ht
  cases hF : bindState m with
  | error e => rw [hF] at ht; cases ht
  | ok F =>
    rw [hF] at ht
    cases ht
    exact ⟨F, rfl, rfl⟩

end Constructs

end ClosureEnv.Binding
