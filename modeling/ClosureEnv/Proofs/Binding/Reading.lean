import ClosureEnv.Proofs.Binding.Lookup
import ClosureEnv.Proofs.Binding.Noting

/-!
# Binding resolves names and notes free variables

What binding makes of each part of a source is what the judgements of `Resolved` ask for, in every
tree that binding may end in, and what the part mentions is noted with the innermost closure. The
induction is on the source, with a case for each construct.
-/

namespace ClosureEnv.Binding

open State ClosureEnv.Bound

variable {m : Syntax.Module} {b b' F : State} {u : String}

/-- The state that a part of a body is bound in: names can be looked up, and the items are known. -/
structure Ready (m : Syntax.Module) (b : State) : Prop where
  regular : b.Regular
  named : b.Named
  frames_ne : b.frames ≠ []
  globals : ∀ name, (b.globalTypes.lookup name).isSome ↔ m.HasGlobal name
  fns : ∀ name, (b.fnTypes.lookup name).isSome ↔ m.HasFn name

/-- The state after a part of a body. -/
structure After (m : Syntax.Module) (b b' : State) : Prop extends Step (fun _ => True) "" b b' where
  ready : Ready m b'

namespace Ready

variable (h : Ready m b)
include h

/-- After a step inside a function. -/
theorem after (hs : Step (fun _ => True) "" b b') (hm : Moves b b') : After m b b' :=
  { hs with
    ready := {
      regular := hs.inv
      named := (hm.keeps Move.named h.regular h.named).2
      frames_ne := hs.frames_ne h.frames_ne
      globals := hs.globalTypes ▸ h.globals
      fns := hs.grows.fnTypes ▸ h.fns } }

/-- After a sink is noted. -/
theorem drainedBy (sink : Sink) (hr : ∀ x ∈ sink.sources, x.InRange b.vars.size b.closures.size) :
    After m b (b.drainedBy sink) :=
  h.after (.drainedBy h.regular sink hr) (.single (.drainedBy sink hr))

/-- In a block or a loop. -/
theorem opened {kind : ScopeKind} (hk : kind ≠ .function) (hk' : kind ≠ .closure)
    (span : Syntax.Span) : Ready m (b.opened kind none span) where
  regular := h.regular.opened h.frames_ne hk hk' span
  named := Move.named (.opened h.frames_ne hk hk' span) h.regular h.named
  frames_ne := List.cons_ne_nil _ _
  globals := h.globals
  fns := h.fns

/-- In a closure. -/
theorem openedClosure (span : Syntax.Span) : Ready m (b.openedClosure span) where
  regular := h.regular.openedClosure h.frames_ne span
  named := Move.named (.openedClosure h.frames_ne span) h.regular h.named
  frames_ne := List.cons_ne_nil _ _
  globals := h.globals
  fns := h.fns

/-- After parameters. -/
theorem params {f : Syntax.Param → Ty} {ps : List Syntax.Param} {vs : List VarId}
    (hrun : (ps.mapM (fun p => declare p.name.text (f p) true true p.span) : Bind _).run b =
      .ok (vs, b')) : After m b b' :=
  h.after (declareParams_spec ps (fun _ _ => trivial) h.regular h.frames_ne hrun).1.toStep
    (declareParams_moves ps h.frames_ne hrun)

/-- After an expression, whose sources are there. -/
theorem expr {e : Syntax.Expr} {x : Expr} {ss : List Source}
    (hrun : (bindExpr e).run b = .ok ((x, ss), b')) :
    After m b b' ∧ ∀ s ∈ ss, s.InRange b'.vars.size b'.closures.size := by
  have hx := (bindExpr_spec (u := "") e e.named_true h.regular h.frames_ne hrun).2
  exact ⟨h.after hx.toStep (bindExpr_moves e h.regular h.frames_ne hrun), hx.in_range⟩

/-- After an optional expression. -/
theorem option {e : Option Syntax.Expr} {x : Option Expr} {ss : List Source}
    (hrun : (bindOption e).run b = .ok ((x, ss), b')) : After m b b' :=
  h.after (bindOption_spec e (Syntax.optionNamed_true e) h.regular h.frames_ne hrun).2.toStep
    (bindOption_moves e h.regular h.frames_ne hrun)

/-- After arguments. -/
theorem args {es : List Syntax.Expr} {xs : List Expr}
    (hrun : (bindArgs es).run b = .ok (xs, b')) : After m b b' :=
  h.after (bindArgs_spec es (Syntax.exprsNamed_true es) h.regular h.frames_ne hrun).toStep
    (bindArgs_moves es h.regular h.frames_ne hrun)

/-- After a block that opens a scope. -/
theorem nested {k : ScopeKind} (hk : k ≠ .function) (hk' : k ≠ .closure) {body : Syntax.Block}
    {x : Block} {ss : List Source} (hrun : (bindScoped k body).run b = .ok ((x, ss), b')) :
    After m b b' ∧ ∀ s ∈ ss, s.InRange b'.vars.size b'.closures.size := by
  have hx := (bindScoped_spec (u := "") k body hk hk' body.named_true h.regular h.frames_ne
    hrun).2.2
  exact ⟨h.after hx.toStep (bindScoped_moves k body hk hk' h.regular h.frames_ne hrun),
    hx.in_range⟩

/-- After statements. -/
theorem stmts {ss : List Syntax.Stmt} {xs : List Stmt}
    (hrun : (bindStmts ss).run b = .ok (xs, b')) : After m b b' :=
  h.after (bindStmts_spec ss (Syntax.stmtsNamed_true ss) h.regular h.frames_ne hrun).toStep
    (bindStmts_moves ss h.regular h.frames_ne hrun)

/-- After a statement. -/
theorem stmt {s : Syntax.Stmt} {x : Stmt} (hrun : (bindStmt s).run b = .ok (x, b')) :
    After m b b' :=
  h.after (bindStmt_spec s s.named_true h.regular h.frames_ne hrun).toStep
    (bindStmt_moves s h.regular h.frames_ne hrun)

/-- After the contents of a block. -/
theorem block {body : Syntax.Block} {x : Block} {ss : List Source}
    (hrun : (bindBlock none body).run b = .ok ((x, ss), b')) :
    After m b b' ∧ ∀ s ∈ ss, s.InRange b'.vars.size b'.closures.size := by
  obtain ⟨-, -, hx, hr⟩ := bindBlock_spec (u := "") body body.named_true h.regular h.frames_ne hrun
  exact ⟨h.after hx.toStep (bindBlock_moves body h.regular h.frames_ne hrun), hr⟩

end Ready

/-- Noting a sink lets the state grow. -/
theorem grows_drainedBy (b : State) (sink : Sink) : b.Grows (b.drainedBy sink) :=
  { Grows.refl b with sinks := List.subset_cons_self _ _ }

/-- What two parts mention, one after the other. -/
theorem Noting.append {b'' : State} {xs ys : List (ScopeId × VarId)}
    (h : Noting F b b' (xs.map Prod.snd)) (h' : Noting F b' b'' (ys.map Prod.snd)) :
    Noting F b b'' ((xs ++ ys).map Prod.snd) :=
  List.map_append (f := Prod.snd) ▸ h.trans h'

/-- What is mentioned before a sink is noted. -/
theorem Noting.drained {vs : List VarId} (h : Noting F b b' vs) (sink : Sink) :
    Noting F b (b'.drainedBy sink) vs :=
  h.before (.of_eq rfl rfl)

/-- What is mentioned in a block or a loop is noted outside of it. -/
theorem Noting.enclosed {vs : List VarId} {kind : ScopeKind} {span : Syntax.Span}
    (h : Noting F (b.opened kind none span) b' vs) : Noting F b b'.closed vs :=
  have hin : Noting F b (b.opened kind none span) [] := .of_eq rfl rfl
  hin.trans (h.before (.of_eq rfl rfl))

/-! ## Names -/

/-- Noting a use declares nothing. -/
theorem State.vars_size_used (b : State) (v : VarId) : (b.used v).vars.size = b.vars.size := by
  unfold State.used
  split
  · rfl
  · split <;> rfl

/-- A name that is mentioned. -/
theorem resolve_reads {name : Syntax.Ident} {x : Expr} {ss : List Source} (h : Ready m b)
    (hF : F.Regular) (hg : b'.Grows F) (hrun : (resolve name).run b = .ok ((x, ss), b')) :
    ExprBinds (F.finish u) m b.currentScope b.vars.size (.var name) b'.vars.size x ∧
      Noting F b b' (x.mentioned b.currentScope) := by
  cases resolve_run hrun with
  | @var v hv =>
    have hvis := vis_of_lookup hv
    obtain ⟨hused, -⟩ := Step.used (u := "") h.regular hvis
    have hgF := hused.grows.trans hg
    rw [State.vars_size_used]
    exact ⟨.name (.var (resolves_of_lookup h.regular h.named h.frames_ne hF hgF hv)),
      .used h.regular hF hgF hvis⟩
  | global hnone hglobal =>
    exact ⟨.name (.global (unresolved_of_lookup h.regular h.named h.frames_ne hF hg hnone)
      ((h.globals name.text).mp hglobal)), .of_eq rfl rfl⟩
  | fn hnone hglobal hfn =>
    exact ⟨.name (.fn (unresolved_of_lookup h.regular h.named h.frames_ne hF hg hnone)
      (fun hhas => hglobal ((h.globals name.text).mpr hhas)) ((h.fns name.text).mp hfn)),
      .of_eq rfl rfl⟩

/-- A name that is assigned to. -/
theorem assign_reads {target : Syntax.Ident} {span : Syntax.Span} {value : Expr}
    {sources : List Source} {x : Stmt} (h : Ready m b) (hF : F.Regular) (hg : b'.Grows F)
    (hr : ∀ s ∈ sources, s.InRange b.vars.size b.closures.size)
    (hrun : (assign target span value sources).run b = .ok (x, b')) :
    ∃ place, x = .assign place value ∧ b'.vars.size = b.vars.size ∧
      TargetBinds (F.finish u) m b.currentScope b.vars.size target.text place ∧
      Noting F b b' (match place with | .var v => [v] | .global _ => []) := by
  have hgrows := (assign_spec (u := "") h.regular hr hrun).choose_spec.2.grows.trans hg
  cases assign_run hrun with
  | @var v hv =>
    exact ⟨.var v, rfl, State.vars_size_used b v,
      .var (resolves_of_lookup h.regular h.named h.frames_ne hF hgrows hv),
      (Noting.used h.regular hF hgrows (vis_of_lookup hv)).before (.of_eq rfl rfl)⟩
  | global hnone hglobal =>
    have hunresolved := unresolved_of_lookup (u := u) h.regular h.named h.frames_ne hF hgrows hnone
    exact ⟨.global target.text, rfl, rfl, .global hunresolved
      ((h.globals target.text).mp (by rw [hglobal]; rfl)), .of_eq rfl rfl⟩

/-- A declaration in the current scope. -/
theorem declares_declared {name : String} {ty : Ty} {isMut isParam : Bool} {span : Syntax.Span}
    (hg : (b.declared name ty isMut isParam span).Grows F) :
    Declares (F.finish u) b.currentScope b.vars.size name isParam :=
  ⟨_, hg.vars _ _ Array.getElem?_push_size, rfl, rfl, rfl⟩

/-- Parameters are declared in the current scope. -/
theorem declareParams_reads {f : Syntax.Param → Ty} : ∀ (params : List Syntax.Param) {b b' : State}
    {vs : List VarId}, Ready m b →
    (params.mapM (fun p => declare p.name.text (f p) true true p.span) : Bind _).run b =
      .ok (vs, b') → b'.closures = b.closures ∧ b'.closureStack = b.closureStack ∧
      b'.vars.size = b.vars.size + params.length ∧ ∀ F : State, b'.Grows F →
        ParamsBind (F.finish u) b.currentScope b.vars.size params vs
  | [], b, b', vs, _, hrun => by
    cases run_pure_eq_ok.mp hrun
    exact ⟨rfl, rfl, rfl, fun _ _ => .nil _⟩
  | p :: params, b, b', vs, h, hrun => by
    obtain ⟨ws, h₂, rfl⟩ := declareParams_cons_run hrun
    have hd := h.after (.declared h.regular h.frames_ne trivial (f p) true true p.span)
      (.single (.declared h.frames_ne p.name.text (f p) true true p.span))
    have hps := hd.ready.params h₂
    obtain ⟨hclosures, hstack, hsize, hbinds⟩ := declareParams_reads params hd.ready h₂
    have hone : (b.declared p.name.text (f p) true true p.span).vars.size = b.vars.size + 1 :=
      Array.size_push _
    refine ⟨hclosures, hstack, ?_, fun F hF => .cons (declares_declared (hps.grows.trans hF)) ?_⟩
    · rw [hsize, hone, List.length_cons]
      omega
    · have hrest := hbinds F hF
      rwa [hd.currentScope, hone] at hrest

/-! ## Closures -/

/-- A closure literal whose body is bound. -/
theorem literal_reads {params : List Syntax.Param} {body : Syntax.Expr} {span span' : Syntax.Span}
    {b₁ b₂ : State} {vs : List VarId} {x : Expr} {ss : List Source} (h : Ready m b)
    (hg : (b₂.finished b.closures.size vs x ss).Grows F)
    (hps : (declareParams params).run (b.openedClosure span) = .ok (vs, b₁))
    (hs : Step (fun _ => True) "" b₁ b₂)
    (hbody : b₂.Grows F → InnerBinds (F.finish u) m b₁.currentScope b₁.vars.size body b₂.vars.size x ∧
      Noting F b₁ b₂ (x.mentioned b₁.currentScope)) :
    ExprBinds (F.finish u) m b.currentScope b.vars.size (.closure params body span')
        (b₂.finished b.closures.size vs x ss).vars.size (.closure b.closures.size) ∧
      Noting F b (b₂.finished b.closures.size vs x ss) [] := by
  rw [declareParams_run] at hps
  have hopened := h.openedClosure span
  have hafter := hopened.params hps
  have hin : Within (fun _ => True) "" span b b₂ :=
    ⟨hafter.toStep.trans hs, h.regular, h.frames_ne⟩
  obtain ⟨hclosures, hstack, hsize, hbinds⟩ := declareParams_reads (u := u) params hopened hps
  have hscope : b₁.currentScope = b.scopes.size := hafter.currentScope
  have hg' := (grows_finished hin.stack_eq vs x ss).trans hg
  obtain ⟨hbinds', hnoting⟩ := hbody hg'
  -- the closure is as it was recorded
  obtain ⟨k, hk, hks, hkd, hkp, hkb⟩ := hin.closure_finished vs x ss
  -- No step after the literal touches it, since it is not on the stack any more.
  have hopen : b.closures.size ∉ (b₂.finished b.closures.size vs x ss).closureStack := by
    show b.closures.size ∉ b₂.closureStack.tail
    rw [hin.stack_eq]
    exact hin.not_mem_stack
  have hkF := State.closure_finish (u := u) (hg.closed _ k hk hopen)
  have hparent := hg'.parent hin.parent
  rw [hscope] at hbinds' hnoting
  have hvars : b₁.vars.size = b.vars.size + params.length := hsize
  rw [hvars] at hbinds'
  refine ⟨.closure hkF hkd ?_ ?_ ?_, .literal h.regular hclosures hstack hnoting⟩
  · show parentIn? F.scopes k.scope = some b.currentScope
    rw [hks]
    exact hparent
  · have hparams := hbinds F (hs.grows.trans hg')
    show ParamsBind (F.finish u) k.scope b.vars.size params k.params
    rw [hks, hkp]
    exact hparams
  · show InnerBinds (F.finish u) m k.scope _ body b₂.vars.size k.body
    rw [hks, hkb]
    exact hbinds'

/-! ## Parts of bodies -/

-- some cases need the last state for their parts only
set_option linter.unusedSectionVars false

variable (hF : F.Regular)
include hF

mutual

/-- Binding an expression. -/
theorem bindExpr_reads : ∀ (e : Syntax.Expr) {b b' : State} {x : Expr} {ss : List Source},
    Ready m b → (bindExpr e).run b = .ok ((x, ss), b') → b'.Grows F →
    ExprBinds (F.finish u) m b.currentScope b.vars.size e b'.vars.size x ∧
      Noting F b b' (x.mentioned b.currentScope)
  | .lit value span, b, b', x, ss, _, hrun, _ => by
    rw [bindExpr, run_pure_eq_ok] at hrun
    cases hrun
    exact ⟨.lit value span, .of_eq rfl rfl⟩
  | .var name, b, b', x, ss, h, hrun, hg => by
    rw [bindExpr] at hrun
    exact resolve_reads h hF hg hrun
  | .paren inner _, b, b', x, ss, h, hrun, hg => by
    rw [bindExpr] at hrun
    obtain ⟨hx, hnote⟩ := bindExpr_reads inner h hrun hg
    exact ⟨.paren hx, hnote⟩
  | .unary op operand _, b, b', x, ss, h, hrun, hg => by
    obtain ⟨y, ts, h₁, rfl, rfl⟩ := bindExpr_unary_run hrun
    obtain ⟨hy, hnote⟩ := bindExpr_reads operand h h₁ hg
    exact ⟨.unary hy, hnote⟩
  | .binary op lhs rhs _, b, b', x, ss, h, hrun, hg => by
    obtain ⟨l, r, ts, us, b₁, h₁, h₂, rfl, rfl⟩ := bindExpr_binary_run hrun
    obtain ⟨hl, -⟩ := h.expr h₁
    obtain ⟨hr, -⟩ := hl.ready.expr h₂
    obtain ⟨hx, hnote⟩ := bindExpr_reads lhs h h₁ (hr.grows.trans hg)
    obtain ⟨hy, hnote'⟩ := bindExpr_reads rhs hl.ready h₂ hg
    rw [hl.currentScope] at hy hnote'
    exact ⟨.binary hx hy, hnote.append hnote'⟩
  | .call callee args _, b, b', x, ss, h, hrun, hg => by
    obtain ⟨f, ts, xs, b₁, h₁, h₂, rfl, rfl⟩ := bindExpr_call_run hrun
    obtain ⟨hf, -⟩ := h.expr h₁
    obtain ⟨hx, hnote⟩ := bindExpr_reads callee h h₁ ((hf.ready.args h₂).grows.trans hg)
    obtain ⟨hy, hnote'⟩ := bindArgs_reads args hf.ready h₂ hg
    rw [hf.currentScope] at hy hnote'
    exact ⟨.call hx hy, hnote.append hnote'⟩
  | .block body, b, b', x, ss, h, hrun, hg => by
    obtain ⟨y, b₁, h₁, rfl, rfl⟩ := bindExpr_block_run hrun
    obtain ⟨hy, hnote⟩ := bindScoped_reads .block body (by decide) (by decide) h h₁
      ((grows_drainedBy b₁ _).trans hg)
    exact ⟨.block hy, hnote.drained _⟩
  | .cond test yes no _, b, b', x, ss, h, hrun, hg => by
    obtain ⟨c, ts, y, us, n, vs, b₁, b₂, h₁, h₂, h₃, rfl, rfl⟩ := bindExpr_cond_run hrun
    obtain ⟨ht, -⟩ := h.expr h₁
    obtain ⟨hy, hr⟩ := ht.ready.nested (by decide) (by decide) h₂
    have hd := hy.ready.drainedBy (.within (y.scope.getD 0) us) hr
    have hn := hd.ready.option h₃
    have hg₂ := hd.grows.trans (hn.grows.trans hg)
    obtain ⟨htb, hnote⟩ := bindExpr_reads test h h₁ (hy.grows.trans hg₂)
    obtain ⟨hyb, hnote₁⟩ := bindScoped_reads .block yes (by decide) (by decide) ht.ready h₂ hg₂
    obtain ⟨hnb, hnote₂⟩ := bindOption_reads no hd.ready h₃ hg
    rw [ht.currentScope] at hyb hnote₁
    rw [hd.currentScope, hy.currentScope, ht.currentScope] at hnb hnote₂
    exact ⟨.cond htb hyb hnb, hnote.append ((hnote₁.drained _).append hnote₂)⟩
  | .loop test body _, b, b', x, ss, h, hrun, hg => by
    obtain ⟨c, ts, y, us, b₁, h₁, h₂, rfl, rfl⟩ := bindExpr_loop_run hrun
    obtain ⟨ht, -⟩ := h.expr h₁
    obtain ⟨hy, -⟩ := ht.ready.nested (by decide) (by decide) h₂
    obtain ⟨htb, hnote⟩ := bindExpr_reads test h h₁ (hy.grows.trans hg)
    obtain ⟨hyb, hnote'⟩ := bindScoped_reads .loop body (by decide) (by decide) ht.ready h₂ hg
    rw [ht.currentScope] at hyb hnote'
    exact ⟨.loop htb hyb, hnote.append hnote'⟩
  | .closure params body span, b, b', x, ss, h, hrun, hg => by
    obtain ⟨vs, y, ts, b₁, b₂, hps, hbody, rfl, rfl, rfl⟩ := bindExpr_closure_run hrun
    have hin := (h.openedClosure span).params (declareParams_run params ▸ hps)
    cases hbody with
    | block hinner h₂ =>
      obtain ⟨hy, -⟩ := hin.ready.block h₂
      exact literal_reads h hg hps hy.toStep (bindInner_reads body hinner hin.ready h₂)
    | expr hno h₂ =>
      obtain ⟨hy, -⟩ := hin.ready.expr h₂
      refine literal_reads h hg hps hy.toStep fun hg₂ => ?_
      obtain ⟨hx, hnote⟩ := bindExpr_reads body hin.ready h₂ hg₂
      exact ⟨.expr hno hx, hnote⟩

/-- Binding the contents of a block that is the body of a closure. -/
theorem bindInner_reads : ∀ (e : Syntax.Expr) {inner : Syntax.Block} {b b' : State} {x : Block}
    {ss : List Source}, e = .block inner → Ready m b →
    (bindBlock none inner).run b = .ok ((x, ss), b') → b'.Grows F →
    InnerBinds (F.finish u) m b.currentScope b.vars.size e b'.vars.size (.block x) ∧
      Noting F b b' ((Expr.block x).mentioned b.currentScope)
  | .block body, inner, b, b', x, ss, he, h, hrun, hg => by
    cases he
    obtain ⟨hx, hnote⟩ := bindBlock_reads body h hrun hg
    exact ⟨.block hx, hnote⟩
  | .lit .., _, _, _, _, _, he, _, _, _ | .var .., _, _, _, _, _, he, _, _, _
  | .unary .., _, _, _, _, _, he, _, _, _ | .call .., _, _, _, _, _, he, _, _, _
  | .binary .., _, _, _, _, _, he, _, _, _ | .paren .., _, _, _, _, _, he, _, _, _
  | .cond .., _, _, _, _, _, he, _, _, _ | .loop .., _, _, _, _, _, he, _, _, _
  | .closure .., _, _, _, _, _, he, _, _, _ => nomatch he

/-- Binding an optional expression. -/
theorem bindOption_reads : ∀ (e : Option Syntax.Expr) {b b' : State} {x : Option Expr}
    {ss : List Source}, Ready m b → (bindOption e).run b = .ok ((x, ss), b') → b'.Grows F →
    OptionBinds (F.finish u) m b.currentScope b.vars.size e b'.vars.size x ∧
      Noting F b b' ((optionMentions b.currentScope x).map Prod.snd)
  | none, b, b', x, ss, _, hrun, _ => by
    rw [bindOption, run_pure_eq_ok] at hrun
    cases hrun
    exact ⟨.none _ _, .of_eq rfl rfl⟩
  | some e, b, b', x, ss, h, hrun, hg => by
    obtain ⟨y, h₁, rfl⟩ := bindOption_some_run hrun
    obtain ⟨hx, hnote⟩ := bindExpr_reads e h h₁ hg
    exact ⟨.some hx, hnote⟩

/-- Binding the arguments of a call. -/
theorem bindArgs_reads : ∀ (es : List Syntax.Expr) {b b' : State} {xs : List Expr}, Ready m b →
    (bindArgs es).run b = .ok (xs, b') → b'.Grows F →
    ExprsBind (F.finish u) m b.currentScope b.vars.size es b'.vars.size xs ∧
      Noting F b b' ((exprsMentions b.currentScope xs).map Prod.snd)
  | [], b, b', xs, _, hrun, _ => by
    rw [bindArgs, run_pure_eq_ok] at hrun
    cases hrun
    exact ⟨.nil _ _, .of_eq rfl rfl⟩
  | e :: es, b, b', xs, h, hrun, hg => by
    obtain ⟨x, ts, ys, b₁, h₁, h₂, rfl⟩ := bindArgs_cons_run hrun
    obtain ⟨hx, hr⟩ := h.expr h₁
    have hd := hx.ready.drainedBy (.escape ts) hr
    obtain ⟨hxb, hnote⟩ := bindExpr_reads e h h₁
      (hd.grows.trans ((hd.ready.args h₂).grows.trans hg))
    obtain ⟨hyb, hnote'⟩ := bindArgs_reads es hd.ready h₂ hg
    rw [hd.currentScope, hx.currentScope] at hyb hnote'
    exact ⟨.cons hxb hyb, (hnote.drained (.escape ts)).append hnote'⟩

/-- Binding a block that opens a scope. -/
theorem bindScoped_reads (k : ScopeKind) : ∀ (body : Syntax.Block) {b b' : State} {x : Block}
    {ss : List Source}, k ≠ .function → k ≠ .closure → Ready m b →
    (bindScoped k body).run b = .ok ((x, ss), b') → b'.Grows F →
    ScopedBinds (F.finish u) m b.currentScope b.vars.size body b'.vars.size x ∧
      Noting F b b' ((x.mentions b.currentScope).map Prod.snd)
  | .mk stmts tail span, b, b', x, ss, hk, hk', h, hrun, hg => by
    obtain ⟨xs, t, b₁, b₂, h₁, h₂, rfl, rfl⟩ := bindScoped_run hrun
    have hin := h.opened hk hk' span
    have hs := hin.stmts h₁
    have ht := hs.ready.option h₂
    have hg₃ := (grows_closed b₂).trans hg
    obtain ⟨hsb, hnote⟩ := bindStmts_reads stmts hin h₁ (ht.grows.trans hg₃)
    obtain ⟨htb, hnote'⟩ := bindOption_reads tail hs.ready h₂ hg₃
    rw [hs.currentScope] at htb hnote'
    have hparent := (hs.grows.trans (ht.grows.trans hg₃)).parent
      (State.parentIn?_opened h.frames_ne k none span)
    exact ⟨.mk hparent hsb htb, (hnote.append hnote').enclosed⟩

/-- Binding the contents of a block in the current scope. -/
theorem bindBlock_reads : ∀ (body : Syntax.Block) {b b' : State} {x : Block} {ss : List Source},
    Ready m b → (bindBlock none body).run b = .ok ((x, ss), b') → b'.Grows F →
    BlockBinds (F.finish u) m b.currentScope b.vars.size body b'.vars.size x ∧
      Noting F b b' ((x.mentions b.currentScope).map Prod.snd)
  | .mk stmts tail _, b, b', x, ss, h, hrun, hg => by
    obtain ⟨xs, t, b₁, h₁, h₂, rfl⟩ := bindBlock_run hrun
    have hs := h.stmts h₁
    obtain ⟨hsb, hnote⟩ := bindStmts_reads stmts h h₁ ((hs.ready.option h₂).grows.trans hg)
    obtain ⟨htb, hnote'⟩ := bindOption_reads tail hs.ready h₂ hg
    rw [hs.currentScope] at htb hnote'
    exact ⟨.mk hsb htb, hnote.append hnote'⟩

/-- Binding statements. -/
theorem bindStmts_reads : ∀ (stmts : List Syntax.Stmt) {b b' : State} {xs : List Stmt}, Ready m b →
    (bindStmts stmts).run b = .ok (xs, b') → b'.Grows F →
    StmtsBind (F.finish u) m b.currentScope b.vars.size stmts b'.vars.size xs ∧
      Noting F b b' ((stmtsMentions b.currentScope xs).map Prod.snd)
  | [], b, b', xs, _, hrun, _ => by
    rw [bindStmts, run_pure_eq_ok] at hrun
    cases hrun
    exact ⟨.nil _ _, .of_eq rfl rfl⟩
  | s :: stmts, b, b', xs, h, hrun, hg => by
    obtain ⟨x, ys, b₁, h₁, h₂, rfl⟩ := bindStmts_cons_run hrun
    have hs := h.stmt h₁
    obtain ⟨hxb, hnote⟩ := bindStmt_reads s h h₁ ((hs.ready.stmts h₂).grows.trans hg)
    obtain ⟨hyb, hnote'⟩ := bindStmts_reads stmts hs.ready h₂ hg
    rw [hs.currentScope] at hyb hnote'
    exact ⟨.cons hxb hyb, hnote.append hnote'⟩

/-- Binding a statement. -/
theorem bindStmt_reads : ∀ (s : Syntax.Stmt) {b b' : State} {x : Stmt}, Ready m b →
    (bindStmt s).run b = .ok (x, b') → b'.Grows F →
    StmtBinds (F.finish u) m b.currentScope b.vars.size s b'.vars.size x ∧
      Noting F b b' ((x.mentions b.currentScope).map Prod.snd)
  | .bind isMut name stated value span, b, b', x, h, hrun, hg => by
    obtain ⟨y, ts, ty, b₁, h₁, -, rfl, rfl⟩ := bindStmt_bind_run hrun
    obtain ⟨hy, hr⟩ := h.expr h₁
    have hd : Step _ "" b₁ (b₁.declared name.text ty isMut false span) :=
      Step.declared hy.ready.regular hy.ready.frames_ne trivial ty isMut false span
    have hst : Step _ "" _ ((b₁.declared name.text ty isMut false span).stored b₁.vars.size ts) :=
      Step.stored hd.inv b₁.vars.size fun s hs =>
        (hr s hs).mono hd.grows.vars_size hd.grows.closures_size
    have hg₂ := hst.grows.trans hg
    obtain ⟨hyb, hnote⟩ := bindExpr_reads value h h₁ (hd.grows.trans hg₂)
    have hsize : ((b₁.declared name.text ty isMut false span).stored b₁.vars.size ts).vars.size =
        b₁.vars.size + 1 := Array.size_push _
    rw [hsize]
    refine ⟨.bind hyb ?_, hnote.before (.of_eq rfl rfl)⟩
    exact hy.currentScope ▸ declares_declared hg₂
  | .assign target value span, b, b', x, h, hrun, hg => by
    obtain ⟨y, ts, b₁, h₁, hrun⟩ := bindStmt_assign_run hrun
    obtain ⟨hy, hr⟩ := h.expr h₁
    have hgrows := (assign_spec (u := "") hy.ready.regular hr hrun).choose_spec.2.grows
    obtain ⟨place, rfl, hsize, hplace, hnote'⟩ := assign_reads (u := u) hy.ready hF hg hr hrun
    obtain ⟨hyb, hnote⟩ := bindExpr_reads value h h₁ (hgrows.trans hg)
    rw [hy.currentScope] at hplace
    rw [hsize]
    refine ⟨.assign hyb hplace, ?_⟩
    cases place with
    | var v =>
      rw [Stmt.mentions, List.map_append]
      exact hnote.trans hnote'
    | global name => exact hnote.before hnote'
  | .expr value _, b, b', x, h, hrun, hg => by
    obtain ⟨y, ts, h₁, rfl⟩ := bindStmt_expr_run hrun
    obtain ⟨hyb, hnote⟩ := bindExpr_reads value h h₁ hg
    exact ⟨.expr hyb, hnote⟩
  | .ret none _, b, b', x, _, hrun, _ => by
    rw [bindStmt, run_pure_eq_ok] at hrun
    cases hrun
    exact ⟨.ret (.none _ _), .of_eq rfl rfl⟩
  | .ret (some value) _, b, b', x, h, hrun, hg => by
    obtain ⟨y, ts, b₁, h₁, rfl, rfl⟩ := bindStmt_ret_run hrun
    obtain ⟨hyb, hnote⟩ := bindExpr_reads value h h₁ ((grows_drainedBy b₁ _).trans hg)
    exact ⟨.ret (.some hyb), hnote.drained _⟩

end

end ClosureEnv.Binding
