import ClosureEnv.Proofs.Binding.Scoping

/-!
# Binding with a log

Binding beside a log of what happens on the way: the state after each primitive step, the
expressions that are bound, and the closures whose parameters and bodies are recorded. Without its
log it is binding as it is (`Logged.bindItems_run`), and what it binds is in the log
(`Logged.tells_bindExpr`). Where binding gives up there is the log up to there.
-/

namespace ClosureEnv.Binding

/-- What happens while a module is bound. -/
inductive Event where
  /-- A primitive step has led to a state. -/
  | reached (b : State)
  /-- An expression is bound. -/
  | bound (x : Bound.Expr)
  /-- The parameters and the body of a closure are recorded. -/
  | recorded (c : ClosureId) (params : List VarId) (body : Bound.Expr)

/-- A step of binding, with what happens on the way from each state. -/
structure Logged (α : Type) where
  /-- The step itself. -/
  run : Bind α
  /-- What happens, up to where the step gives up if it does. -/
  log : State → List Event

namespace Logged

variable {α β : Type}

instance : Monad Logged where
  pure a := ⟨pure a, fun _ => []⟩
  bind x f := ⟨x.run >>= fun a => (f a).run, fun b => x.log b ++
    match x.run.run b with
    | .ok (a, b') => (f a).log b'
    | .error _ => []⟩

/-- A primitive step. -/
def step (x : Bind α) : Logged α :=
  ⟨x, fun b =>
    match x.run b with
    | .ok (_, b') => [.reached b']
    | .error _ => []⟩

/-- Something happens that changes nothing. -/
def tell (e : Event) : Logged Unit :=
  ⟨pure (), fun _ => [e]⟩

/-- Gives an expression that is bound, and its sources. -/
def give (r : Bound.Expr × List Source) : Logged (Bound.Expr × List Source) := do
  tell (.bound r.1)
  return r

/-- Declares parameters. -/
def declareParams (params : List Syntax.Param) : Logged (List VarId) := do
  let generics := (← step get).current.generics
  params.mapM' fun p => step (declare p.name.text (paramTy generics p) true true p.span)

/-- The type of a variable with an initial value. -/
def bindingTy (stated : Option Syntax.TypeExpr) (generics : List String)
    (value : Bound.Expr) : Logged Ty := do
  match stated with
  | some t => return .ofTypeExpr generics t
  | none => return (← step get).infer value

/-- What a name stands for. -/
def resolve (name : Syntax.Ident) : Logged (Bound.Expr × List Source) := do
  let b ← step get
  match b.lookup? name.text with
  | some v =>
    step (noteUse v)
    give (.var v, [.var v])
  | none =>
    if (b.globalTypes.lookup name.text).isSome then give (.global name.text, [])
    else if (b.fnTypes.lookup name.text).isSome then give (.fn name.text, [])
    else step (throw (.unknownVariable name.text name.span))

/-- An assignment of a bound value. -/
def assign (target : Syntax.Ident) (span : Syntax.Span) (value : Bound.Expr)
    (sources : List Source) : Logged Bound.Stmt := do
  let b ← step get
  match b.lookup? target.text with
  | some v =>
    let var := b.vars[v]?.getD default
    if !var.isMut then step (throw (.immutableAssignment target.text span))
    step (noteUse v)
    step (store v sources)
    step (drain (.below var.scope sources))
    return .assign (.var v) value
  | none =>
    match b.globalTypes.lookup target.text with
    | some (true, _) =>
      step (drain (.escape sources))
      return .assign (.global target.text) value
    | some (false, _) => step (throw (.immutableAssignment target.text span))
    | none =>
      if (b.fnTypes.lookup target.text).isSome then
        step (throw (.immutableAssignment target.text span))
      else step (throw (.unknownVariable target.text target.span))

/-- Opens the scope of a closure, which becomes the innermost one. -/
def pushClosure (span : Syntax.Span) : Logged ClosureId := do
  let b ← step get
  let id := b.closures.size
  let ordinal := b.current.closureCount
  let owner := b.current.id
  let declaredIn := b.currentScope
  step (set { b with current := { b.current with closureCount := ordinal + 1 } })
  let scope ← step (openScope .closure (some id) span)
  let closure : Closure :=
    ⟨id, scope, declaredIn, owner, ordinal, [], false, [], .lit .nil, span⟩
  step (modify fun b => { b with
    closures := b.closures.push closure
    closureStack := id :: b.closureStack })
  return id

/-- Closes the scope of a closure. -/
def popClosure (sources : List Source) : Logged Unit := do
  step (modify fun b => { b with closureStack := b.closureStack.tail })
  step closeScope
  step (drain (.escape sources))

/-- Records the parameters and the body of a closure. -/
def record (id : ClosureId) (params : List VarId) (body : Bound.Expr) : Logged Unit := do
  tell (.recorded id params body)
  step (modify fun b => { b with
    closures := b.closures.modify id fun c => { c with params, body } })

/-- Closes the scope of a closure and records its parameters and its body. -/
def closeClosure (id : ClosureId) (params : List VarId) (body : Bound.Expr)
    (sources : List Source) : Logged (Bound.Expr × List Source) := do
  popClosure sources
  record id params body
  give (.closure id, [.closure id])

/-- Binds a literal, given how its body is bound. -/
def bindClosure (params : List Syntax.Param) (span : Syntax.Span)
    (body : Logged (Bound.Expr × List Source)) : Logged (Bound.Expr × List Source) := do
  let id ← pushClosure span
  let vars ← declareParams params
  let (x, sources) ← body
  closeClosure id vars x sources

mutual

/-- Binds an expression. -/
def bindExpr : Syntax.Expr → Logged (Bound.Expr × List Source)
  | .lit value _ => give (.lit value, [])
  | .var name => resolve name
  | .paren inner _ => bindExpr inner
  | .unary op operand _ => do
    let (x, _) ← bindExpr operand
    give (.unary op x, [])
  | .binary op lhs rhs _ => do
    let (l, _) ← bindExpr lhs
    let (r, _) ← bindExpr rhs
    give (.binary op l r, [])
  | .call callee args _ => do
    let (f, _) ← bindExpr callee
    give (.call f (← bindArgs args), [])
  | .block body => do
    let (b, sources) ← bindScoped .block body
    step (drain (.within (b.scope.getD 0) sources))
    give (.block b, sources)
  | .cond test yes no _ => do
    let (c, _) ← bindExpr test
    let (t, sources) ← bindScoped .block yes
    step (drain (.within (t.scope.getD 0) sources))
    let (e, more) ← bindOption no
    give (.cond c t e, sources ++ more)
  | .loop test body _ => do
    let (c, _) ← bindExpr test
    let (b, _) ← bindScoped .loop body
    give (.loop c b, [])
  | .closure params (.block body) span => bindClosure params span do
    let (x, sources) ← bindBlock none body
    return (.block x, sources)
  | .closure params body span => bindClosure params span (bindExpr body)

/-- Binds an optional expression. -/
def bindOption : Option Syntax.Expr → Logged (Option Bound.Expr × List Source)
  | none => return (none, [])
  | some e => do
    let (x, sources) ← bindExpr e
    return (some x, sources)

/-- Binds the arguments of a call. -/
def bindArgs : List Syntax.Expr → Logged (List Bound.Expr)
  | [] => return []
  | e :: es => do
    let (x, sources) ← bindExpr e
    step (drain (.escape sources))
    return x :: (← bindArgs es)

/-- Binds a block that opens a scope. -/
def bindScoped (kind : ScopeKind) : Syntax.Block → Logged (Bound.Block × List Source)
  | .mk stmts tail span => do
    let scope ← step (openScope kind none span)
    let ss ← bindStmts stmts
    let (t, sources) ← bindOption tail
    step closeScope
    return (.mk (some scope) ss t, sources)

/-- Binds the contents of a block in the current scope. -/
def bindBlock (scope : Option ScopeId) : Syntax.Block → Logged (Bound.Block × List Source)
  | .mk stmts tail _ => do
    let ss ← bindStmts stmts
    let (t, sources) ← bindOption tail
    tell (.bound (.block (.mk scope ss t)))
    return (.mk scope ss t, sources)

/-- Binds statements. -/
def bindStmts : List Syntax.Stmt → Logged (List Bound.Stmt)
  | [] => return []
  | s :: ss => do
    let x ← bindStmt s
    return x :: (← bindStmts ss)

/-- Binds a statement. -/
def bindStmt : Syntax.Stmt → Logged Bound.Stmt
  | .bind isMut name stated value span => do
    let (x, sources) ← bindExpr value
    let ty ← bindingTy stated (← step get).current.generics x
    let v ← step (declare name.text ty isMut false span)
    step (store v sources)
    return .bind v x
  | .assign target value span => do
    let (x, sources) ← bindExpr value
    assign target span x sources
  | .expr value _ => do
    let (x, _) ← bindExpr value
    return .expr x
  | .ret none _ => return .ret none
  | .ret (some value) _ => do
    let (x, sources) ← bindExpr value
    step (drain (.escape sources))
    return .ret (some x)

end

/-- Starts a function. -/
def openFn (name : String) (generics : List String) (span : Syntax.Span)
    (isSynthetic : Bool) : Logged Unit := do
  step (modify fun b =>
    let current : Current := ⟨b.fns.size, name, generics, 0, 0, isSynthetic⟩
    { b with current })
  let scope ← step (openScope .function none span)
  step (modify fun b => { b with current := { b.current with scope } })

/-- Ends the current function. -/
def closeFn (params : List VarId) (ret : Ty) (body : Bound.Block) : Logged Unit := do
  step closeScope
  step (modify fun b =>
    let f := b.current
    let fn : Function :=
      ⟨f.id, f.name, f.generics, f.scope, f.id, params, ret, body, f.isSynthetic⟩
    { b with fns := b.fns.push fn })

/-- Binds a function. -/
def bindFn (d : Syntax.FnDecl) : Logged Unit := do
  let generics := d.generics.map Syntax.Ident.text
  openFn d.name.text generics d.span false
  let params ← declareParams d.params
  let (body, sources) ← bindBlock none d.body
  step (drain (.escape sources))
  let ret ← bindingTy d.retTy generics (.block body)
  closeFn params ret body

/-- Binds a global. -/
def bindGlobal (d : Syntax.LetDecl) : Logged Unit := do
  let (init, sources) ← bindExpr d.value
  step (drain (.escape sources))
  let ty ← bindingTy d.ty [] init
  step (modify fun b => { b with
    globalTypes := (d.name.text, d.isMut, ty) :: b.globalTypes
    globals := b.globals.push ⟨d.name.text, d.isMut, ty, init⟩ })

/-- Makes the items known, in their order; `seen` are the names so far. -/
def declareItems (seen : List String) : List Syntax.Item → Logged Unit
  | [] => return ()
  | item :: items => do
    let name := itemName item
    if seen.contains name.text then step (throw (.duplicateItem name.text name.span))
    match item with
    | .function d =>
      let generics := d.generics.map Syntax.Ident.text
      let ret := (d.retTy.map (Ty.ofTypeExpr generics)).getD .unknown
      step (modify fun b => { b with
        fnTypes := (name.text, .fn (d.params.map (paramTy generics)) ret) :: b.fnTypes })
    | .binding d =>
      let ty := (d.ty.map (Ty.ofTypeExpr [])).getD .unknown
      step (modify fun b => { b with globalTypes := (name.text, d.isMut, ty) :: b.globalTypes })
    declareItems (name.text :: seen) items

/-- Binds all items. -/
def bindItems (m : Syntax.Module) : Logged Unit := do
  declareItems [] m.items
  (functions m.items).forM bindFn
  match globals m.items with
  | [] => return ()
  | ds =>
    openFn moduleFn [] m.span true
    ds.forM bindGlobal
    closeFn [] .unit (.mk none [] none)

/-! ## Without the log -/

@[simp] theorem run_pure (a : α) : (pure a : Logged α).run = pure a :=
  rfl

@[simp] theorem run_bind (x : Logged α) (f : α → Logged β) :
    (x >>= f).run = x.run >>= fun a => (f a).run :=
  rfl

@[simp] theorem run_step (x : Bind α) : (step x).run = x :=
  rfl

@[simp] theorem run_tell (e : Event) : (tell e).run = pure () :=
  rfl

@[simp] theorem run_ite (p : Prop) [Decidable p] (x y : Logged α) :
    (if p then x else y).run = if p then x.run else y.run := by
  split <;> rfl

@[simp] theorem run_give (r : Bound.Expr × List Source) : (give r).run = pure r :=
  rfl

@[simp] theorem declareParams_run (params : List Syntax.Param) :
    (declareParams params).run = Binding.declareParams params := by
  have hmap (generics : List String) : ∀ ps : List Syntax.Param,
      (ps.mapM' fun p => step (declare p.name.text (paramTy generics p) true true p.span)).run =
        ps.mapM fun p => declare p.name.text (paramTy generics p) true true p.span := by
    intro ps
    induction ps with
    | nil => rfl
    | cons p ps ih => simp [ih]
  simp [declareParams, Binding.declareParams, hmap]

@[simp] theorem bindingTy_run (stated : Option Syntax.TypeExpr) (generics : List String)
    (value : Bound.Expr) :
    (bindingTy stated generics value).run = Binding.bindingTy stated generics value := by
  cases stated <;> rfl

@[simp] theorem resolve_run (name : Syntax.Ident) :
    (resolve name).run = Binding.resolve name := by
  refine bind_congr fun b => ?_
  beta_reduce
  cases b.lookup? name.text with
  | some v => rfl
  | none => simp only [run_ite, run_give, run_step]

@[simp] theorem assign_run (target : Syntax.Ident) (span : Syntax.Span) (value : Bound.Expr)
    (sources : List Source) :
    (assign target span value sources).run = Binding.assign target span value sources := by
  refine bind_congr fun b => ?_
  beta_reduce
  cases b.lookup? target.text with
  | some v =>
    dsimp only
    split <;> rfl
  | none =>
    cases b.globalTypes.lookup target.text with
    | some e => obtain ⟨_ | _, _⟩ := e <;> rfl
    | none => simp only [run_ite, run_step]

@[simp] theorem bindClosure_run (params : List Syntax.Param) (span : Syntax.Span)
    (body : Logged (Bound.Expr × List Source)) : (bindClosure params span body).run =
      (do
        let (id, vars) ← openClosure params span
        let (x, sources) ← body.run
        Binding.closeClosure id vars x sources) := by
  simp only [bindClosure, pushClosure, openClosure, run_bind, run_step, run_pure,
    declareParams_run, bind_assoc, pure_bind]
  rfl

/-- A literal of a body that is no block. -/
theorem bindExpr_closure {params : List Syntax.Param} {body : Syntax.Expr} {span : Syntax.Span}
    (h : ∀ inner, body ≠ .block inner) :
    bindExpr (.closure params body span) = bindClosure params span (bindExpr body) := by
  cases body with
  | block inner => exact absurd rfl (h inner)
  | _ => rfl

mutual

@[simp] theorem bindExpr_run : ∀ e : Syntax.Expr, (bindExpr e).run = Binding.bindExpr e
  | .lit _ _ => rfl
  | .var name => resolve_run name
  | .paren inner _ => bindExpr_run inner
  | .unary op operand _ => by
    simp only [bindExpr, Binding.bindExpr, run_bind, run_give, bindExpr_run operand]
  | .binary op lhs rhs _ => by
    simp only [bindExpr, Binding.bindExpr, run_bind, run_give, bindExpr_run lhs, bindExpr_run rhs]
  | .call callee args _ => by
    simp only [bindExpr, Binding.bindExpr, run_bind, run_give, bindExpr_run callee,
      bindArgs_run args]
  | .block body => by
    simp only [bindExpr, Binding.bindExpr, run_bind, run_give, run_step, bindScoped_run .block body]
  | .cond test yes no _ => by
    simp only [bindExpr, Binding.bindExpr, run_bind, run_give, run_step, bindExpr_run test,
      bindScoped_run .block yes, bindOption_run no]
  | .loop test body _ => by
    simp only [bindExpr, Binding.bindExpr, run_bind, run_give, bindExpr_run test,
      bindScoped_run .loop body]
  | .closure params body span => by
    -- a block that is the whole body opens no scope of its own
    by_cases hinner : ∃ inner, body = .block inner
    · obtain ⟨inner, rfl⟩ := hinner
      simp only [bindExpr, Binding.bindExpr, bindClosure_run, run_bind, run_pure,
        bindBlock_run none inner, bind_assoc, pure_bind]
    · have hbody (inner : Syntax.Block) : body ≠ .block inner := fun h => hinner ⟨inner, h⟩
      rw [bindExpr_closure hbody, Binding.bindExpr_closure hbody, bindClosure_run,
        bindExpr_run body]

@[simp] theorem bindOption_run : ∀ e : Option Syntax.Expr,
    (bindOption e).run = Binding.bindOption e
  | none => rfl
  | some e => by
    simp only [bindOption, Binding.bindOption, run_bind, run_pure, bindExpr_run e]

@[simp] theorem bindArgs_run : ∀ es : List Syntax.Expr, (bindArgs es).run = Binding.bindArgs es
  | [] => rfl
  | e :: es => by
    simp only [bindArgs, Binding.bindArgs, run_bind, run_pure, run_step, bindExpr_run e,
      bindArgs_run es]

@[simp] theorem bindScoped_run (kind : ScopeKind) : ∀ body : Syntax.Block,
    (bindScoped kind body).run = Binding.bindScoped kind body
  | .mk stmts tail _ => by
    simp only [bindScoped, Binding.bindScoped, run_bind, run_pure, run_step, bindStmts_run stmts,
      bindOption_run tail]

@[simp] theorem bindBlock_run (scope : Option ScopeId) : ∀ body : Syntax.Block,
    (bindBlock scope body).run = Binding.bindBlock scope body
  | .mk stmts tail _ => by
    simp only [bindBlock, Binding.bindBlock, run_bind, run_pure, run_tell, pure_bind,
      bindStmts_run stmts, bindOption_run tail]

@[simp] theorem bindStmts_run : ∀ ss : List Syntax.Stmt, (bindStmts ss).run = Binding.bindStmts ss
  | [] => rfl
  | s :: ss => by
    simp only [bindStmts, Binding.bindStmts, run_bind, run_pure, bindStmt_run s, bindStmts_run ss]

@[simp] theorem bindStmt_run : ∀ s : Syntax.Stmt, (bindStmt s).run = Binding.bindStmt s
  | .bind _ _ stated value _ => by
    simp only [bindStmt, Binding.bindStmt, run_bind, run_pure, run_step, bindExpr_run value,
      bindingTy_run]
  | .assign _ value _ => by
    simp only [bindStmt, Binding.bindStmt, run_bind, bindExpr_run value, assign_run]
  | .expr value _ => by
    simp only [bindStmt, Binding.bindStmt, run_bind, run_pure, bindExpr_run value]
  | .ret none _ => rfl
  | .ret (some value) _ => by
    simp only [bindStmt, Binding.bindStmt, run_bind, run_pure, run_step, bindExpr_run value]

end

@[simp] theorem bindFn_run (d : Syntax.FnDecl) : (bindFn d).run = Binding.bindFn d := by
  simp only [bindFn, Binding.bindFn, openFn, Binding.openFn, closeFn, Binding.closeFn, run_bind,
    run_step, declareParams_run, bindBlock_run, bindingTy_run, bind_assoc]

@[simp] theorem bindGlobal_run (d : Syntax.LetDecl) :
    (bindGlobal d).run = Binding.bindGlobal d := by
  simp only [bindGlobal, Binding.bindGlobal, run_bind, run_step, bindExpr_run, bindingTy_run]

@[simp] theorem declareItems_run : ∀ (items : List Syntax.Item) (seen : List String),
    (declareItems seen items).run = Binding.declareItems seen items
  | [], _ => rfl
  | item :: items, seen => by
    rw [declareItems, Binding.declareItems]
    dsimp only
    split
    · rfl
    · cases item <;> exact bind_congr fun _ => declareItems_run items _

@[simp] theorem forM_run {f : α → Logged Unit} : ∀ as : List α,
    (as.forM f).run = as.forM fun a => (f a).run
  | [] => rfl
  | _ :: as => bind_congr fun _ => forM_run as

/-- Without its log, binding with a log is binding. -/
theorem bindItems_run (m : Syntax.Module) : (bindItems m).run = Binding.bindItems m := by
  simp only [bindItems, Binding.bindItems, run_bind, declareItems_run, forM_run, bindFn_run]
  refine bind_congr fun _ => bind_congr fun _ => ?_
  cases globals m.items with
  | nil => rfl
  | cons d ds =>
    simp only [openFn, Binding.openFn, closeFn, Binding.closeFn, run_bind, run_step, forM_run,
      bindGlobal_run, bind_assoc]

/-! ## What is given -/

/-- An expression that is given is in the log. -/
def Tells (x : Logged (Bound.Expr × List Source)) : Prop :=
  ∀ b r b', x.run.run b = .ok (r, b') → .bound r.1 ∈ x.log b

/-- It is told where it is given. -/
theorem tells_give (r : Bound.Expr × List Source) : Tells (give r) := by
  intro b r' b' hr
  cases run_pure_eq_ok.mp hr
  exact List.mem_cons_self

/-- What the last part tells is in the log of the whole. -/
theorem Tells.of_bind {x : Logged α} {f : α → Logged (Bound.Expr × List Source)}
    (hf : ∀ a, Tells (f a)) : Tells (x >>= f) := by
  intro b r b' hr
  obtain ⟨a, b₁, hx, hr⟩ := run_bind_eq_ok.mp hr
  have hlog : (x >>= f).log b = x.log b ++ (f a).log b₁ := by simp [Bind.bind, hx]
  exact hlog ▸ List.mem_append_right _ (hf a b₁ r b' hr)

/-- A name that stands for something is given as an expression. -/
theorem tells_resolve (name : Syntax.Ident) : Tells (resolve name) := by
  refine .of_bind fun b => ?_
  split
  · exact .of_bind fun _ => tells_give _
  split
  · exact tells_give _
  split
  · exact tells_give _
  · exact fun _ _ _ hr => absurd hr run_throw_ne_ok

/-- So is a literal. -/
theorem tells_bindClosure (params : List Syntax.Param) (span : Syntax.Span)
    (body : Logged (Bound.Expr × List Source)) : Tells (bindClosure params span body) :=
  .of_bind fun _ => .of_bind fun _ => .of_bind fun _ => .of_bind fun _ => .of_bind fun _ =>
    tells_give _

/-- Every expression that is bound is in the log. -/
theorem tells_bindExpr : ∀ e : Syntax.Expr, Tells (bindExpr e)
  | .lit _ _ => tells_give _
  | .var name => tells_resolve name
  | .paren inner _ => tells_bindExpr inner
  | .unary _ _ _ => .of_bind fun _ => tells_give _
  | .binary _ _ _ _ | .call _ _ _ | .block _ | .loop _ _ _ =>
    .of_bind fun _ => .of_bind fun _ => tells_give _
  | .cond _ _ _ _ => .of_bind fun _ => .of_bind fun _ => .of_bind fun _ => .of_bind fun _ =>
    tells_give _
  | .closure _ body _ => by cases body <;> exact tells_bindClosure _ _ _

end Logged

end ClosureEnv.Binding
