import ClosureEnv.Proofs.Binding.Source
import Mathlib.Logic.Relation

/-!
# Binding as a run of primitive steps

`Move` lists the primitive steps, each with what has to hold where it is taken. Binding a module
takes such steps and no others (`moves_of_bindState`), so what every one of them keeps holds of all
states on the way.
-/

namespace ClosureEnv.Binding

open State ClosureEnv.Bound

/-- A primitive step, where it may be taken. -/
inductive Move : State → State → Prop
  /-- A block or a loop is opened in a scope. -/
  | opened {b : State} (hf : b.frames ≠ []) {kind : ScopeKind} (hk : kind ≠ .function)
      (hk' : kind ≠ .closure) (span : Syntax.Span) : Move b (b.opened kind none span)
  /-- A block or a loop is closed. -/
  | closed {b : State} (hf : b.frames.tail ≠ [])
      (hc : b.scopes[b.currentScope]?.bind Scope.closure = none) : Move b b.closed
  /-- A variable is declared in a scope. -/
  | declared {b : State} (hf : b.frames ≠ []) (name : String) (ty : Ty) (isMut isParam : Bool)
      (span : Syntax.Span) : Move b (b.declared name ty isMut isParam span)
  /-- A variable that is in sight is used. -/
  | used {b : State} {v : VarId} (hv : b.Vis v) : Move b (b.used v)
  /-- Something is stored into a variable. -/
  | stored {b : State} (v : VarId) {sources : List Source}
      (hs : ∀ x ∈ sources, x.InRange b.vars.size b.closures.size) : Move b (b.stored v sources)
  /-- A sink is noted. -/
  | drainedBy {b : State} (sink : Sink)
      (hs : ∀ x ∈ sink.sources, x.InRange b.vars.size b.closures.size) : Move b (b.drainedBy sink)
  /-- A closure is opened in a scope. -/
  | openedClosure {b : State} (hf : b.frames ≠ []) (span : Syntax.Span) :
      Move b (b.openedClosure span)
  /-- The innermost closure is ended. -/
  | finished {b : State} (hf : b.frames.tail ≠ []) {c : ClosureId}
      (hc : b.scopes[b.currentScope]?.bind Scope.closure = some c) (params : List VarId)
      (body : Expr) {sources : List Source}
      (hs : ∀ x ∈ sources, x.InRange b.vars.size b.closures.size) :
      Move b (b.finished c params body sources)
  /-- A function is started outside of any scope. -/
  | started {b : State} (hf : b.frames = []) (name : String) (generics : List String)
      (span : Syntax.Span) (isSynthetic : Bool) : Move b (b.started name generics span isSynthetic)
  /-- A function is ended in its own scope. -/
  | ended {b : State} {f : Frame} (hf : b.frames = [f])
      (hc : b.scopes[f.scope]?.bind Scope.closure = none) (params : List VarId) (ret : Ty)
      (body : Block) : Move b (b.ended params ret body)
  /-- Something is learnt of the items. -/
  | learnt {b : State} (fnTypes : List (String × Ty)) (globalTypes : List (String × Bool × Ty))
      (globals : Array Global) : Move b { b with fnTypes, globalTypes, globals }

/-- Primitive steps, one after the other. -/
abbrev Moves : State → State → Prop :=
  Relation.ReflTransGen Move

/-- The invariant, whatever the names of variables. -/
abbrev State.Regular (b : State) : Prop :=
  b.Inv fun _ => True

variable {b b' : State}

/-- A primitive step keeps the invariant. -/
theorem Move.regular (h : Move b b') (hb : b.Regular) : b'.Regular := by
  cases h with
  | opened hf hk hk' span => exact hb.opened hf hk hk' span
  | closed hf hc => exact hb.closed hf hc
  | declared hf name ty isMut isParam span => exact hb.declared hf trivial ty isMut isParam span
  | used hv => exact (Step.used (u := "") hb hv).1.inv
  | stored v hs => exact hb.stored v hs
  | drainedBy sink hs => exact hb.drainedBy sink hs
  | openedClosure hf span => exact hb.openedClosure hf span
  | finished hf hc params body hs =>
    exact ((hb.closedClosure hf hc).drainedBy (.escape _) hs).recorded _ params body
  | started hf name generics span isSynthetic => exact hb.started hf name generics span isSynthetic
  | ended hf hc params ret body => exact hb.ended hf hc params ret body
  | learnt fnTypes globalTypes globals => exact { hb with }

/-- What primitive steps keep, next to the invariant, is kept by any number of them. -/
theorem Moves.keeps {I : State → Prop} (hI : ∀ {b b'}, Move b b' → b.Regular → I b → I b')
    (h : Moves b b') (hb : b.Regular) (hi : I b) : b'.Regular ∧ I b' := by
  induction h with
  | refl => exact ⟨hb, hi⟩
  | tail _ hm ih => exact ⟨hm.regular ih.1, hI hm ih.1 ih.2⟩

/-! ## Parts of bodies -/

/-- Declaring parameters. -/
theorem declareParams_moves {f : Syntax.Param → Ty} : ∀ (params : List Syntax.Param) {b b' : State}
    {vs : List VarId}, b.frames ≠ [] →
    (params.mapM (fun p => declare p.name.text (f p) true true p.span) : Bind _).run b =
      .ok (vs, b') → Moves b b'
  | [], b, b', vs, _, hrun => by
    cases run_pure_eq_ok.mp hrun
    exact .refl
  | p :: params, b, b', vs, hf, hrun => by
    obtain ⟨ws, h₂, rfl⟩ := declareParams_cons_run hrun
    refine .head (.declared hf p.name.text (f p) true true p.span) (declareParams_moves params ?_ h₂)
    obtain ⟨g, gs, hg⟩ := List.exists_cons_of_ne_nil hf
    simp [State.declared, hg]

/-- Resolving a name. -/
theorem resolve_moves {name : Syntax.Ident} {x : Expr} {ss : List Source}
    (hrun : (resolve name).run b = .ok ((x, ss), b')) : Moves b b' := by
  cases resolve_run hrun with
  | var hv => exact .single (.used (vis_of_lookup hv))
  | global => exact .refl
  | fn => exact .refl

/-- Assigning a value. -/
theorem assign_moves {target : Syntax.Ident} {span : Syntax.Span} {value : Expr}
    {sources : List Source} {x : Stmt} (h : b.Regular)
    (hr : ∀ s ∈ sources, s.InRange b.vars.size b.closures.size)
    (hrun : (assign target span value sources).run b = .ok (x, b')) : Moves b b' := by
  cases assign_run hrun with
  | @var v hv =>
    have hvis := vis_of_lookup hv
    have hgrows := (Step.used (u := "") h hvis).1.grows
    have hr' : ∀ s ∈ sources, s.InRange (b.used v).vars.size (b.used v).closures.size :=
      fun s hs => (hr s hs).mono hgrows.vars_size hgrows.closures_size
    exact .head (.used hvis) (.head (.stored v hr') (.single (.drainedBy _ hr')))
  | global => exact .single (.drainedBy _ hr)

/-- A run inside a block or a loop, and the steps that open and close it. -/
theorem Moves.enclosed (hf : b.frames ≠ []) {kind : ScopeKind} (hk : kind ≠ .function)
    (hk' : kind ≠ .closure) {span : Syntax.Span}
    (hs : Step (fun _ => True) "" (b.opened kind none span) b')
    (h : Moves (b.opened kind none span) b') : Moves b b'.closed := by
  refine .head (.opened hf hk hk' span) (h.tail (.closed (hs.outer ▸ hf) ?_))
  have hnew : (b.opened kind none span).scopes[b.scopes.size]? =
      some (b.newScope kind none span) := Array.getElem?_push_size
  rw [hs.currentScope, show (b.opened kind none span).currentScope = b.scopes.size from rfl,
    hs.grows.scopes _ _ hnew]
  rfl

/-- A run inside a closure, and the steps that open and close it. -/
theorem Moves.literal (hb : b.Regular) (hf : b.frames ≠ []) {params : List Syntax.Param}
    {span : Syntax.Span} {b₁ b₂ : State} {vs : List VarId} {body : Expr} {ss : List Source}
    (hps : (declareParams params).run (b.openedClosure span) = .ok (vs, b₁))
    (hs : Step (fun _ => True) "" b₁ b₂)
    (hr : ∀ s ∈ ss, s.InRange b₂.vars.size b₂.closures.size) (h : Moves b₁ b₂) :
    Moves b (b₂.finished b.closures.size vs body ss) := by
  rw [declareParams_run] at hps
  obtain ⟨hstep, -⟩ := declareParams_spec (P := fun _ => True) (u := "") params
    (fun _ _ => trivial) (hb.openedClosure hf span) (List.cons_ne_nil _ _) hps
  have hin : Within (fun _ => True) "" span b b₂ := ⟨hstep.toStep.trans hs, hb, hf⟩
  have hnew : (b.openedClosure span).scopes[b.scopes.size]? =
      some (b.newScope .closure (some b.closures.size) span) := Array.getElem?_push_size
  refine .head (.openedClosure hf span) ((declareParams_moves params (List.cons_ne_nil _ _) hps).trans
    (h.tail (.finished (hin.outer_eq ▸ hf) ?_ vs body hr)))
  rw [hin.currentScope_eq, hin.grows.scopes _ _ hnew]
  rfl

mutual

/-- Binding an expression. -/
theorem bindExpr_moves : ∀ (e : Syntax.Expr) {b b' : State} {x : Expr} {ss : List Source},
    b.Regular → b.frames ≠ [] → (bindExpr e).run b = .ok ((x, ss), b') → Moves b b'
  | .lit value _, b, b', x, ss, _, _, hrun => by
    rw [bindExpr, run_pure_eq_ok] at hrun
    cases hrun
    exact .refl
  | .var name, b, b', x, ss, _, _, hrun => by
    rw [bindExpr] at hrun
    exact resolve_moves hrun
  | .paren inner _, b, b', x, ss, h, hf, hrun => by
    rw [bindExpr] at hrun
    exact bindExpr_moves inner h hf hrun
  | .unary op operand _, b, b', x, ss, h, hf, hrun => by
    obtain ⟨y, ts, h₁, rfl, rfl⟩ := bindExpr_unary_run hrun
    exact bindExpr_moves operand h hf h₁
  | .binary op lhs rhs _, b, b', x, ss, h, hf, hrun => by
    obtain ⟨l, r, ts, us, b₁, h₁, h₂, rfl, rfl⟩ := bindExpr_binary_run hrun
    have hl := (bindExpr_spec (u := "") lhs lhs.named_true h hf h₁).2
    exact (bindExpr_moves lhs h hf h₁).trans (bindExpr_moves rhs hl.inv (hl.frames_ne hf) h₂)
  | .call callee args _, b, b', x, ss, h, hf, hrun => by
    obtain ⟨f, ts, xs, b₁, h₁, h₂, rfl, rfl⟩ := bindExpr_call_run hrun
    have hc := (bindExpr_spec (u := "") callee callee.named_true h hf h₁).2
    exact (bindExpr_moves callee h hf h₁).trans (bindArgs_moves args hc.inv (hc.frames_ne hf) h₂)
  | .block body, b, b', x, ss, h, hf, hrun => by
    obtain ⟨y, b₁, h₁, rfl, rfl⟩ := bindExpr_block_run hrun
    have hb := (bindScoped_spec (u := "") .block body (by decide) (by decide) body.named_true h hf
      h₁).2.2
    exact (bindScoped_moves .block body (by decide) (by decide) h hf h₁).tail
      (.drainedBy _ hb.in_range)
  | .cond test yes no _, b, b', x, ss, h, hf, hrun => by
    obtain ⟨c, ts, y, us, n, vs, b₁, b₂, h₁, h₂, h₃, rfl, rfl⟩ := bindExpr_cond_run hrun
    have hc := (bindExpr_spec (u := "") test test.named_true h hf h₁).2
    have hy := (bindScoped_spec (u := "") .block yes (by decide) (by decide) yes.named_true hc.inv
      (hc.frames_ne hf) h₂).2.2
    have hyd := hy.drain (.within (y.scope.getD 0) us) rfl
    have hyes := (bindScoped_moves .block yes (by decide) (by decide) hc.inv (hc.frames_ne hf)
      h₂).tail (.drainedBy (.within (y.scope.getD 0) us) hy.in_range)
    exact (bindExpr_moves test h hf h₁).trans (hyes.trans
      (bindOption_moves no hyd.inv (hyd.frames_ne (hc.frames_ne hf)) h₃))
  | .loop test body _, b, b', x, ss, h, hf, hrun => by
    obtain ⟨c, ts, y, us, b₁, h₁, h₂, rfl, rfl⟩ := bindExpr_loop_run hrun
    have hc := (bindExpr_spec (u := "") test test.named_true h hf h₁).2
    exact (bindExpr_moves test h hf h₁).trans
      (bindScoped_moves .loop body (by decide) (by decide) hc.inv (hc.frames_ne hf) h₂)
  | .closure params body span, b, b', x, ss, h, hf, hrun => by
    obtain ⟨vs, y, ts, b₁, b₂, hps, hbody, rfl, rfl, rfl⟩ := bindExpr_closure_run hrun
    obtain ⟨hinv, hne⟩ := declareParams_inv (fun _ _ => trivial) h hf hps
    cases hbody with
    | block hinner h₂ =>
      obtain ⟨-, -, hy, hr⟩ := bindInner_spec (u := "") body hinner body.named_true hinv hne h₂
      exact .literal h hf hps hy.toStep hr (bindInner_moves body hinner hinv hne h₂)
    | expr _ h₂ =>
      have hy := (bindExpr_spec (u := "") body body.named_true hinv hne h₂).2
      exact .literal h hf hps hy.toStep hy.in_range (bindExpr_moves body hinv hne h₂)

/-- Binding the contents of a block that is the body of a closure. -/
theorem bindInner_moves : ∀ (e : Syntax.Expr) {inner : Syntax.Block} {b b' : State} {x : Block}
    {ss : List Source}, e = .block inner → b.Regular → b.frames ≠ [] →
    (bindBlock none inner).run b = .ok ((x, ss), b') → Moves b b'
  | .block body, inner, b, b', x, ss, he, h, hf, hrun => by
    cases he
    exact bindBlock_moves body h hf hrun
  | .lit .., _, _, _, _, _, he, _, _, _ | .var .., _, _, _, _, _, he, _, _, _
  | .unary .., _, _, _, _, _, he, _, _, _ | .call .., _, _, _, _, _, he, _, _, _
  | .binary .., _, _, _, _, _, he, _, _, _ | .paren .., _, _, _, _, _, he, _, _, _
  | .cond .., _, _, _, _, _, he, _, _, _ | .loop .., _, _, _, _, _, he, _, _, _
  | .closure .., _, _, _, _, _, he, _, _, _ => nomatch he

/-- Binding an optional expression. -/
theorem bindOption_moves : ∀ (e : Option Syntax.Expr) {b b' : State} {x : Option Expr}
    {ss : List Source}, b.Regular → b.frames ≠ [] → (bindOption e).run b = .ok ((x, ss), b') →
    Moves b b'
  | none, b, b', x, ss, _, _, hrun => by
    rw [bindOption, run_pure_eq_ok] at hrun
    cases hrun
    exact .refl
  | some e, b, b', x, ss, h, hf, hrun => by
    obtain ⟨y, h₁, rfl⟩ := bindOption_some_run hrun
    exact bindExpr_moves e h hf h₁

/-- Binding the arguments of a call. -/
theorem bindArgs_moves : ∀ (es : List Syntax.Expr) {b b' : State} {xs : List Expr},
    b.Regular → b.frames ≠ [] → (bindArgs es).run b = .ok (xs, b') → Moves b b'
  | [], b, b', xs, _, _, hrun => by
    rw [bindArgs, run_pure_eq_ok] at hrun
    cases hrun
    exact .refl
  | e :: es, b, b', xs, h, hf, hrun => by
    obtain ⟨x, ts, ys, b₁, h₁, h₂, rfl⟩ := bindArgs_cons_run hrun
    have hx := (bindExpr_spec (u := "") e e.named_true h hf h₁).2
    have hxd := hx.drain (.escape ts) rfl
    exact ((bindExpr_moves e h hf h₁).tail (.drainedBy (.escape ts) hx.in_range)).trans
      (bindArgs_moves es hxd.inv (hxd.frames_ne hf) h₂)

/-- Binding a block that opens a scope. -/
theorem bindScoped_moves (k : ScopeKind) : ∀ (body : Syntax.Block) {b b' : State} {x : Block}
    {ss : List Source}, k ≠ .function → k ≠ .closure → b.Regular → b.frames ≠ [] →
    (bindScoped k body).run b = .ok ((x, ss), b') → Moves b b'
  | .mk stmts tail span, b, b', x, ss, hk, hk', h, hf, hrun => by
    obtain ⟨xs, t, b₁, b₂, h₁, h₂, rfl, rfl⟩ := bindScoped_run hrun
    have hin := h.opened hf hk hk' span
    have hxs := bindStmts_spec (u := "") stmts (Syntax.stmtsNamed_true stmts) hin
      (List.cons_ne_nil _ _) h₁
    have hne := hxs.frames_ne (List.cons_ne_nil _ _)
    have ht := (bindOption_spec (u := "") tail (Syntax.optionNamed_true tail) hxs.inv hne h₂).2
    exact .enclosed hf hk hk' (hxs.toStep.trans ht.toStep)
      ((bindStmts_moves stmts hin (List.cons_ne_nil _ _) h₁).trans
        (bindOption_moves tail hxs.inv hne h₂))

/-- Binding the contents of a block in the current scope. -/
theorem bindBlock_moves : ∀ (body : Syntax.Block) {b b' : State} {x : Block} {ss : List Source},
    b.Regular → b.frames ≠ [] → (bindBlock none body).run b = .ok ((x, ss), b') → Moves b b'
  | .mk stmts tail _, b, b', x, ss, h, hf, hrun => by
    obtain ⟨xs, t, b₁, h₁, h₂, rfl⟩ := bindBlock_run hrun
    have hxs := bindStmts_spec (u := "") stmts (Syntax.stmtsNamed_true stmts) h hf h₁
    exact (bindStmts_moves stmts h hf h₁).trans
      (bindOption_moves tail hxs.inv (hxs.frames_ne hf) h₂)

/-- Binding statements. -/
theorem bindStmts_moves : ∀ (stmts : List Syntax.Stmt) {b b' : State} {xs : List Stmt},
    b.Regular → b.frames ≠ [] → (bindStmts stmts).run b = .ok (xs, b') → Moves b b'
  | [], b, b', xs, _, _, hrun => by
    rw [bindStmts, run_pure_eq_ok] at hrun
    cases hrun
    exact .refl
  | s :: stmts, b, b', xs, h, hf, hrun => by
    obtain ⟨x, ys, b₁, h₁, h₂, rfl⟩ := bindStmts_cons_run hrun
    have hx := bindStmt_spec (u := "") s s.named_true h hf h₁
    exact (bindStmt_moves s h hf h₁).trans (bindStmts_moves stmts hx.inv (hx.frames_ne hf) h₂)

/-- Binding a statement. -/
theorem bindStmt_moves : ∀ (s : Syntax.Stmt) {b b' : State} {x : Stmt},
    b.Regular → b.frames ≠ [] → (bindStmt s).run b = .ok (x, b') → Moves b b'
  | .bind isMut name stated value span, b, b', x, h, hf, hrun => by
    obtain ⟨y, ts, ty, b₁, h₁, -, rfl, rfl⟩ := bindStmt_bind_run hrun
    have hy := (bindExpr_spec (u := "") value value.named_true h hf h₁).2
    have hd : Part _ "" b₁ (b₁.declared name.text ty isMut false span) _ _ :=
      Part.declared hy.inv (hy.frames_ne hf) trivial ty isMut false span
    exact ((bindExpr_moves value h hf h₁).tail
      (.declared (hy.frames_ne hf) name.text ty isMut false span)).tail
        (.stored _ (hy.in_range_later hd.grows))
  | .assign target value span, b, b', x, h, hf, hrun => by
    obtain ⟨y, ts, b₁, h₁, hrun⟩ := bindStmt_assign_run hrun
    have hy := (bindExpr_spec (u := "") value value.named_true h hf h₁).2
    exact (bindExpr_moves value h hf h₁).trans (assign_moves hy.inv hy.in_range hrun)
  | .expr value _, b, b', x, h, hf, hrun => by
    obtain ⟨y, ts, h₁, rfl⟩ := bindStmt_expr_run hrun
    exact bindExpr_moves value h hf h₁
  | .ret none _, b, b', x, _, _, hrun => by
    rw [bindStmt, run_pure_eq_ok] at hrun
    cases hrun
    exact .refl
  | .ret (some value) _, b, b', x, h, hf, hrun => by
    obtain ⟨y, ts, b₁, h₁, rfl, rfl⟩ := bindStmt_ret_run hrun
    have hy := (bindExpr_spec (u := "") value value.named_true h hf h₁).2
    exact (bindExpr_moves value h hf h₁).tail (.drainedBy (.escape ts) hy.in_range)

end

/-! ## Items -/

/-- A run inside a function, and the steps that start and end it. -/
theorem Moves.function (hb : b.frames = []) {name : String} {generics : List String}
    {span : Syntax.Span} {isSynthetic : Bool}
    (hs : b'.frames.map Frame.scope = [b.scopes.size])
    (hg : (b.started name generics span isSynthetic).Grows b')
    (h : Moves (b.started name generics span isSynthetic) b') (params : List VarId) (ret : Ty)
    (body : Block) : Moves b (b'.ended params ret body) := by
  obtain ⟨f, hf, hfs⟩ := List.map_eq_singleton_iff.mp hs
  obtain ⟨s, hsc, -, hclosure⟩ := started_scope b name generics span isSynthetic
  refine .head (.started hb name generics span isSynthetic) (h.tail (.ended hf ?_ params ret body))
  rw [hfs, hg.scopes _ _ hsc]
  exact hclosure

/-- Binding a function. -/
theorem bindFn_moves {d : Syntax.FnDecl} {r : Unit} (h : b.Between (fun _ => True) "")
    (hrun : (bindFn d).run b = .ok (r, b')) : Moves b b' := by
  obtain ⟨vs, y, ts, ret, b₂, b₃, h₂, h₃, rfl⟩ := bindFn_run hrun
  generalize d.generics.map Syntax.Ident.text = generics at *
  have hstart := h.started d.name.text generics d.span false
  have hne : (b.started d.name.text generics d.span false).frames ≠ [] := List.cons_ne_nil _ _
  obtain ⟨hps, -⟩ := declareParams_spec (P := fun _ => True) (u := "") d.params
    (fun _ _ => trivial) hstart.inv hne h₂
  have hne' := hps.frames_ne hne
  obtain ⟨-, -, hy, hr⟩ := bindBlock_spec (u := "") d.body d.body.named_true hps.inv hne' h₃
  have hstep := hps.toStep.trans hy.toStep
  refine Moves.function h.closed ?_ (hstep.trans (Step.drainedBy hy.inv (.escape ts) hr)).grows
    (((declareParams_moves d.params hne h₂).trans (bindBlock_moves d.body hps.inv hne' h₃)).tail
      (.drainedBy (.escape ts) hr)) vs ret y
  rw [show (b₃.drainedBy (.escape ts)).frames = b₃.frames from rfl, hstep.frames]
  simp [started, opened, h.closed]

/-- Binding functions, one after the other. -/
theorem bindFns_moves : ∀ (ds : List Syntax.FnDecl) {b b' : State} {r : Unit},
    b.Between (fun _ => True) "" → (ds.forM bindFn).run b = .ok (r, b') → Moves b b'
  | [], b, b', r, _, hrun => by
    cases run_pure_eq_ok.mp hrun
    exact .refl
  | d :: ds, b, b', r, h, hrun => by
    rw [List.forM, run_bind_eq_ok] at hrun
    obtain ⟨_, b₁, h₁, hrun⟩ := hrun
    obtain ⟨hb, -⟩ := bindFn_spec (fun _ _ => trivial) d.body.named_true h h₁
    exact (bindFn_moves h h₁).trans (bindFns_moves ds hb hrun)

/-- Binding a global. -/
theorem bindGlobal_moves {d : Syntax.LetDecl} {r : ScopeId} {q : Unit}
    (h : b.InGlobals (fun _ => True) "" r) (hrun : (bindGlobal d).run b = .ok (q, b')) :
    Moves b b' := by
  obtain ⟨y, ts, ty, b₁, h₁, rfl⟩ := bindGlobal_run hrun
  have hne : b.frames ≠ [] := by simp [h.opened]
  have hy := (bindExpr_spec (u := "") d.value d.value.named_true h.inv hne h₁).2
  exact ((bindExpr_moves d.value h.inv hne h₁).tail (.drainedBy (.escape ts) hy.in_range)).tail
    (.learnt _ _ _)

/-- Binding globals, one after the other. -/
theorem bindGlobals_moves {r : ScopeId} : ∀ (ds : List Syntax.LetDecl) {b b' : State} {q : Unit},
    b.InGlobals (fun _ => True) "" r → (ds.forM bindGlobal).run b = .ok (q, b') → Moves b b'
  | [], b, b', q, _, hrun => by
    cases run_pure_eq_ok.mp hrun
    exact .refl
  | d :: ds, b, b', q, h, hrun => by
    rw [List.forM, run_bind_eq_ok] at hrun
    obtain ⟨_, b₁, h₁, hrun⟩ := hrun
    obtain ⟨hb, -⟩ := bindGlobal_spec d.value.named_true h h₁
    exact (bindGlobal_moves h h₁).trans (bindGlobals_moves ds hb hrun)

/-- Binding a module. -/
theorem moves_of_bindState {m : Syntax.Module} {F : State} (hF : bindState m = .ok F) :
    Moves .empty F := by
  obtain ⟨b₀, b₁, h₀, h₁, hglobals⟩ := bindState_run hF
  obtain ⟨⟨ft, gt, rfl⟩, -⟩ := declareItems_spec m.items h₀
  have hstart : ({ State.empty with fnTypes := ft, globalTypes := gt } : State).Between
      (fun _ => True) "" := between_empty ft gt
  obtain ⟨hb, -, hgl, -⟩ := bindFns_spec (functions m.items)
    (fun d _ => ⟨fun _ _ => trivial, d.body.named_true⟩) hstart h₁
  have hfns : Moves .empty b₁ := .head (.learnt ft gt #[]) (bindFns_moves _ hstart h₁)
  rcases hglobals with ⟨-, rfl⟩ | ⟨-, b₃, h₃, rfl⟩
  · exact hfns
  · have hin := hb.inGlobals hgl m.span
    obtain ⟨hin', hg, -⟩ := bindGlobals_spec (globals m.items)
      (fun d _ => d.value.named_true) hin h₃
    refine hfns.trans (Moves.function hb.closed ?_ hg (bindGlobals_moves _ hin h₃) _ _ _)
    simp [hin'.opened]

end ClosureEnv.Binding
