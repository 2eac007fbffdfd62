import ClosureEnv.Binding.Escape

/-!
# Binding a module

Names are resolved in the order of the source, functions before the initial values of the globals.
An initial value does not see the variable that it belongs to. What a block, a conditional or a
variable may stand for is handed up as sources.
-/

namespace ClosureEnv.Binding

open Syntax (Literal)

/-- The type of a parameter, if it is annotated. -/
def paramTy (generics : List String) (p : Syntax.Param) : Ty :=
  (p.ty.map (Ty.ofTypeExpr generics)).getD .unknown

/-- Declares parameters. They may be assigned to. -/
def declareParams (params : List Syntax.Param) : Bind (List VarId) := do
  let generics := (← get).current.generics
  params.mapM fun p => declare p.name.text (paramTy generics p) true true p.span

/-- The type of a variable with an initial value. -/
def bindingTy (stated : Option Syntax.TypeExpr) (generics : List String)
    (value : Bound.Expr) : Bind Ty := do
  match stated with
  | some t => return .ofTypeExpr generics t
  | none => return (← get).infer value

/-- What a name stands for. -/
def resolve (name : Syntax.Ident) : Bind (Bound.Expr × List Source) := do
  let b ← get
  match b.lookup? name.text with
  | some v =>
    noteUse v
    return (.var v, [.var v])
  | none =>
    if (b.globalTypes.lookup name.text).isSome then return (.global name.text, [])
    else if (b.fnTypes.lookup name.text).isSome then return (.fn name.text, [])
    else throw (.unknownVariable name.text name.span)

/-- An assignment of a bound value. -/
def assign (target : Syntax.Ident) (span : Syntax.Span) (value : Bound.Expr)
    (sources : List Source) : Bind Bound.Stmt := do
  let b ← get
  match b.lookup? target.text with
  | some v =>
    let var := b.vars[v]?.getD default
    if !var.isMut then throw (.immutableAssignment target.text span)
    noteUse v
    store v sources
    drain (.below var.scope sources)
    return .assign (.var v) value
  | none =>
    match b.globalTypes.lookup target.text with
    | some (true, _) =>
      drain (.escape sources)
      return .assign (.global target.text) value
    | some (false, _) => throw (.immutableAssignment target.text span)
    | none =>
      if (b.fnTypes.lookup target.text).isSome then throw (.immutableAssignment target.text span)
      else throw (.unknownVariable target.text target.span)

/-- Opens the scope of a closure, which becomes the innermost one, and declares its parameters. -/
def openClosure (params : List Syntax.Param) (span : Syntax.Span) :
    Bind (ClosureId × List VarId) := do
  let b ← get
  let id := b.closures.size
  let ordinal := b.current.closureCount
  let owner := b.current.id
  let declaredIn := b.currentScope
  set { b with current := { b.current with closureCount := ordinal + 1 } }
  let scope ← openScope .closure (some id) span
  let closure : Closure :=
    ⟨id, scope, declaredIn, owner, ordinal, [], false, [], .lit .nil, span⟩
  modify fun b => { b with
    closures := b.closures.push closure
    closureStack := id :: b.closureStack }
  return (id, ← declareParams params)

/-- Closes the scope of a closure and records its parameters and its body. -/
def closeClosure (id : ClosureId) (params : List VarId) (body : Bound.Expr)
    (sources : List Source) : Bind (Bound.Expr × List Source) := do
  modify fun b => { b with closureStack := b.closureStack.tail }
  closeScope
  drain (.escape sources)
  modify fun b => { b with
    closures := b.closures.modify id fun c => { c with params, body } }
  return (.closure id, [.closure id])

mutual

/-- Binds an expression. -/
def bindExpr : Syntax.Expr → Bind (Bound.Expr × List Source)
  | .lit value _ => return (.lit value, [])
  | .var name => resolve name
  | .paren inner _ => bindExpr inner
  | .unary op operand _ => do
    let (x, _) ← bindExpr operand
    return (.unary op x, [])
  | .binary op lhs rhs _ => do
    let (l, _) ← bindExpr lhs
    let (r, _) ← bindExpr rhs
    return (.binary op l r, [])
  | .call callee args _ => do
    let (f, _) ← bindExpr callee
    return (.call f (← bindArgs args), [])
  | .block body => do
    let (b, sources) ← bindScoped .block body
    drain (.within (b.scope.getD 0) sources)
    return (.block b, sources)
  | .cond test yes no _ => do
    let (c, _) ← bindExpr test
    let (t, sources) ← bindScoped .block yes
    drain (.within (t.scope.getD 0) sources)
    let (e, more) ← bindOption no
    return (.cond c t e, sources ++ more)
  | .loop test body _ => do
    let (c, _) ← bindExpr test
    let (b, _) ← bindScoped .loop body
    return (.loop c b, [])
  | .closure params (.block body) span => do
    -- the locals of a block that is the body belong to the scope of the closure
    let (id, vars) ← openClosure params span
    let (x, sources) ← bindBlock none body
    closeClosure id vars (.block x) sources
  | .closure params body span => do
    let (id, vars) ← openClosure params span
    let (x, sources) ← bindExpr body
    closeClosure id vars x sources

/-- Binds an optional expression. -/
def bindOption : Option Syntax.Expr → Bind (Option Bound.Expr × List Source)
  | none => return (none, [])
  | some e => do
    let (x, sources) ← bindExpr e
    return (some x, sources)

/-- Binds the arguments of a call, which escape. -/
def bindArgs : List Syntax.Expr → Bind (List Bound.Expr)
  | [] => return []
  | e :: es => do
    let (x, sources) ← bindExpr e
    drain (.escape sources)
    return x :: (← bindArgs es)

/-- Binds a block that opens a scope. -/
def bindScoped (kind : ScopeKind) : Syntax.Block → Bind (Bound.Block × List Source)
  | .mk stmts tail span => do
    let scope ← openScope kind none span
    let ss ← bindStmts stmts
    let (t, sources) ← bindOption tail
    closeScope
    return (.mk (some scope) ss t, sources)

/-- Binds the contents of a block in the current scope. -/
def bindBlock (scope : Option ScopeId) : Syntax.Block → Bind (Bound.Block × List Source)
  | .mk stmts tail _ => do
    let ss ← bindStmts stmts
    let (t, sources) ← bindOption tail
    return (.mk scope ss t, sources)

/-- Binds statements. -/
def bindStmts : List Syntax.Stmt → Bind (List Bound.Stmt)
  | [] => return []
  | s :: ss => do
    let x ← bindStmt s
    return x :: (← bindStmts ss)

/-- Binds a statement. -/
def bindStmt : Syntax.Stmt → Bind Bound.Stmt
  | .bind isMut name stated value span => do
    let (x, sources) ← bindExpr value
    let ty ← bindingTy stated (← get).current.generics x
    let v ← declare name.text ty isMut false span
    store v sources
    return .bind v x
  | .assign target value span => do
    let (x, sources) ← bindExpr value
    assign target span x sources
  | .expr value _ => do
    let (x, _) ← bindExpr value
    return .expr x
  | .ret none _ => return .ret none
  | .ret (some value) _ => do
    let (x, sources) ← bindExpr value
    drain (.escape sources)
    return .ret (some x)

end

/-- Starts a function. -/
def openFn (name : String) (generics : List String) (span : Syntax.Span)
    (isSynthetic : Bool) : Bind Unit := do
  modify fun b =>
    let current : Current := ⟨b.fns.size, name, generics, 0, 0, isSynthetic⟩
    { b with current }
  let scope ← openScope .function none span
  modify fun b => { b with current := { b.current with scope } }

/-- Ends the current function. -/
def closeFn (params : List VarId) (ret : Ty) (body : Bound.Block) : Bind Unit := do
  closeScope
  modify fun b =>
    let f := b.current
    let fn : Function :=
      ⟨f.id, f.name, f.generics, f.scope, f.id, params, ret, body, f.isSynthetic⟩
    { b with fns := b.fns.push fn }

/-- Binds a function. -/
def bindFn (d : Syntax.FnDecl) : Bind Unit := do
  let generics := d.generics.map Syntax.Ident.text
  openFn d.name.text generics d.span false
  let params ← declareParams d.params
  let (body, sources) ← bindBlock none d.body
  drain (.escape sources)
  let ret ← bindingTy d.retTy generics (.block body)
  closeFn params ret body

/-- Binds a global. Its initial value escapes. -/
def bindGlobal (d : Syntax.LetDecl) : Bind Unit := do
  let (init, sources) ← bindExpr d.value
  drain (.escape sources)
  let ty ← bindingTy d.ty [] init
  modify fun b => { b with
    globalTypes := (d.name.text, d.isMut, ty) :: b.globalTypes
    globals := b.globals.push ⟨d.name.text, d.isMut, ty, init⟩ }

/-- The name of an item. -/
def itemName : Syntax.Item → Syntax.Ident
  | .function d => d.name
  | .binding d => d.name

/-- Makes the items known, in their order; `seen` are the names so far. -/
def declareItems (seen : List String) : List Syntax.Item → Bind Unit
  | [] => return ()
  | item :: items => do
    let name := itemName item
    if seen.contains name.text then throw (.duplicateItem name.text name.span)
    match item with
    | .function d =>
      let generics := d.generics.map Syntax.Ident.text
      let ret := (d.retTy.map (Ty.ofTypeExpr generics)).getD .unknown
      modify fun b => { b with
        fnTypes := (name.text, .fn (d.params.map (paramTy generics)) ret) :: b.fnTypes }
    | .binding d =>
      let ty := (d.ty.map (Ty.ofTypeExpr [])).getD .unknown
      modify fun b => { b with globalTypes := (name.text, d.isMut, ty) :: b.globalTypes }
    declareItems (name.text :: seen) items

/-- The functions among some items. -/
def functions (items : List Syntax.Item) : List Syntax.FnDecl :=
  items.filterMap fun
    | .function d => some d
    | .binding _ => none

/-- The globals among some items. -/
def globals (items : List Syntax.Item) : List Syntax.LetDecl :=
  items.filterMap fun
    | .function _ => none
    | .binding d => some d

/-- Binds all items. The initial values of the globals, if there are any, share one function. -/
def bindItems (m : Syntax.Module) : Bind Unit := do
  declareItems [] m.items
  (functions m.items).forM bindFn
  match globals m.items with
  | [] => return ()
  | ds =>
    openFn moduleFn [] m.span true
    ds.forM bindGlobal
    closeFn [] .unit (.mk none [] none)

/-- The state after all items. -/
def bindState (m : Syntax.Module) : Except BindError State :=
  ((bindItems m).run .empty).map Prod.snd

end Binding

/-- The scope tree of a module. -/
def bindModule (m : Syntax.Module) (unit : String) : Except BindError ScopeTree :=
  (Binding.bindState m).map (·.finish unit)

end ClosureEnv
